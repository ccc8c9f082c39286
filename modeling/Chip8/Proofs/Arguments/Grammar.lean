import Mathlib.Data.List.Induction
import Mathlib.Data.List.Nodup
import Mathlib.Data.List.TakeWhile
import Chip8.Arguments

/-! Which arguments set which flags, what the others come to, and arguments written from flags. -/
namespace Chip8.Arguments

variable {a key key' value value' : String} {as : List String} {flags : List (String × String)}

/-- What may stand between the dashes and the equals sign. -/
def IsKey (key : String) : Prop :=
  key ≠ "" ∧ '=' ∉ key.toList

def OneLine (value : String) : Prop :=
  ∀ c ∈ value.toList, isLineEnd c = false

instance : DecidablePred IsKey :=
  fun key => inferInstanceAs (Decidable (key ≠ "" ∧ '=' ∉ key.toList))

instance : DecidablePred OneLine :=
  fun value => List.decidableBAll (isLineEnd · = false) value.toList

/-- The flags that an argument sets, and their values. -/
inductive Sets : String → String → String → Prop
  | bare {key : String} (hkey : IsKey key) : Sets ("--" ++ key) key "1"
  | valued {key value : String} (hkey : IsKey key) (hvalue : OneLine value) :
      Sets ("--" ++ key ++ "=" ++ value) key value

/-- An argument that sets no flag. -/
def Plain (a : String) : Prop :=
  ∀ key value, ¬ Sets a key value

theorem IsKey.passes (hkey : IsKey key) : ∀ c ∈ key.toList, (c != '=') = true := by
  intro c hc
  exact bne_iff_ne.mpr fun he => hkey.2 (he ▸ hc)

theorem IsKey.toList_ne_nil (hkey : IsKey key) : key.toList ≠ [] :=
  fun he => hkey.1 (String.ext he)

theorem flag?_of_sets (h : Sets a key value) : flag? a = some (key, value) := by
  cases h with
  | bare hkey =>
    have htake := List.takeWhile_eq_self_iff.mpr hkey.passes
    have hdrop := List.dropWhile_eq_nil_iff.mpr hkey.passes
    have hlist : ("--" ++ key).toList = '-' :: '-' :: key.toList := by
      rw [String.toList_append]
      rfl
    rw [flag?, hlist]
    simp [htake, hdrop, hkey.toList_ne_nil]
  | valued hkey hvalue =>
    have htake : (key.toList ++ '=' :: value.toList).takeWhile (· != '=') = key.toList := by
      rw [List.takeWhile_append_of_pos hkey.passes]
      simp
    have hdrop : (key.toList ++ '=' :: value.toList).dropWhile (· != '=') =
        '=' :: value.toList := by
      rw [List.dropWhile_append_of_pos hkey.passes]
      simp
    have hline : value.toList.any isLineEnd = false :=
      List.any_eq_false.mpr fun c hc => Bool.eq_false_iff.mp (hvalue c hc)
    have hlist : ("--" ++ key ++ "=" ++ value).toList =
        '-' :: '-' :: (key.toList ++ '=' :: value.toList) := by
      simp only [String.toList_append, List.append_assoc]
      rfl
    rw [flag?, hlist]
    simp [htake, hdrop, hline, hkey.toList_ne_nil]

theorem isKey_takeWhile {body : List Char} (h : body.takeWhile (· != '=') ≠ []) :
    IsKey (String.ofList (body.takeWhile (· != '='))) := by
  constructor
  · intro he
    apply h
    rw [← String.toList_ofList (l := body.takeWhile (· != '=')), he]
    rfl
  · intro hc
    rw [String.toList_ofList] at hc
    simpa using List.mem_takeWhile_imp hc

theorem head_of_dropWhile {body rest : List Char} {c : Char}
    (h : body.dropWhile (· != '=') = c :: rest) : c = '=' := by
  have hhead := List.head?_dropWhile_not (· != '=') body
  rw [h] at hhead
  simpa using hhead

theorem sets_of_flag? (h : flag? a = some (key, value)) : Sets a key value := by
  unfold flag? at h
  split at h
  case h_2 => cases h
  case h_1 body hlist =>
    by_cases hne : body.takeWhile (· != '=') = []
    · simp [hne] at h
    have hkey := isKey_takeWhile hne
    have hsplit := List.takeWhile_append_dropWhile (p := (· != '=')) (l := body)
    generalize body.takeWhile (· != '=') = front at h hne hkey hsplit
    rw [if_neg (by simpa using hne)] at h
    cases hdrop : body.dropWhile (· != '=') with
    | nil =>
      simp only [hdrop, Option.some.injEq, Prod.mk.injEq] at h
      obtain ⟨rfl, rfl⟩ := h
      have ha : a = "--" ++ String.ofList front := by
        apply String.ext
        rw [hlist, ← hsplit, hdrop]
        simp only [List.append_nil, String.toList_append, String.toList_ofList]
        rfl
      rw [ha]
      exact .bare hkey
    | cons c rest =>
      obtain rfl := head_of_dropWhile hdrop
      by_cases hline : rest.any isLineEnd
      · simp [hdrop, hline] at h
      simp only [hdrop, hline, Bool.false_eq_true, if_false, Option.some.injEq,
        Prod.mk.injEq] at h
      obtain ⟨rfl, rfl⟩ := h
      have hvalue : OneLine (String.ofList rest) := by
        intro c hc
        rw [String.toList_ofList] at hc
        simpa using List.any_eq_false.mp (Bool.eq_false_iff.mpr hline) c hc
      have ha : a = "--" ++ String.ofList front ++ "=" ++ String.ofList rest := by
        apply String.ext
        rw [hlist, ← hsplit, hdrop]
        simp only [String.toList_append, String.toList_ofList, List.append_assoc]
        rfl
      rw [ha]
      exact .valued hkey hvalue

theorem flag?_eq_none_iff : flag? a = none ↔ Plain a := by
  constructor
  · intro h key value hsets
    rw [flag?_of_sets hsets] at h
    cases h
  · intro h
    cases hflag : flag? a with
    | none => rfl
    | some setting => exact absurd (sets_of_flag? hflag) (h setting.1 setting.2)

instance : DecidablePred Plain :=
  fun _ => decidable_of_iff _ flag?_eq_none_iff

theorem Sets.unique (h : Sets a key value) (h' : Sets a key' value') :
    key = key' ∧ value = value' := by
  have hsame := (flag?_of_sets h).symm.trans (flag?_of_sets h')
  simpa using hsame

theorem plain_of_no_dashes (h : ¬ "--".toList <+: a.toList) : Plain a := by
  intro key value hsets
  apply h
  cases hsets with
  | bare =>
    rw [String.toList_append]
    exact List.prefix_append _ _
  | valued =>
    rw [String.append_assoc, String.append_assoc, String.toList_append]
    exact List.prefix_append _ _

/-! ### Settings one after the other -/

theorem setFlag_nodup (h : (flags.map Prod.fst).Nodup) :
    ((setFlag flags key value).map Prod.fst).Nodup := by
  have hothers : ((flags.filter (·.1 != key)).map Prod.fst).Nodup :=
    h.sublist (List.filter_sublist.map _)
  have hnew : key ∉ (flags.filter (·.1 != key)).map Prod.fst := by
    simp
  rw [setFlag, List.map_append]
  exact hothers.append (List.nodup_singleton key) (List.disjoint_singleton.mpr hnew)

theorem setFlag_of_new (h : key ∉ flags.map Prod.fst) :
    setFlag flags key value = flags ++ [(key, value)] := by
  have hothers : flags.filter (·.1 != key) = flags := by
    apply List.filter_eq_self.mpr
    intro setting hmem
    exact bne_iff_ne.mpr fun he => h (List.mem_map.mpr ⟨setting, hmem, he⟩)
  rw [setFlag, hothers]

theorem mem_setFlag_iff :
    (key', value') ∈ setFlag flags key value ↔
      (key' = key ∧ value' = value) ∨ (key' ≠ key ∧ (key', value') ∈ flags) := by
  simp only [setFlag, List.mem_append, List.mem_filter, bne_iff_ne, List.mem_singleton,
    Prod.mk.injEq]
  tauto

theorem lookup_eq_some_iff_mem (h : (flags.map Prod.fst).Nodup) :
    flags.lookup key = some value ↔ (key, value) ∈ flags := by
  induction flags with
  | nil => simp
  | cons setting flags ih =>
    obtain ⟨key', value'⟩ := setting
    obtain ⟨hnew, hrest⟩ := List.nodup_cons.mp h
    rcases eq_or_ne key key' with rfl | he
    · have hnone : (key, value) ∉ flags := fun hmem =>
        hnew (List.mem_map.mpr ⟨_, hmem, rfl⟩)
      simp [hnone, eq_comm]
    · simp [List.lookup_cons, beq_eq_false_iff_ne.mpr he, he, ih hrest]

theorem ofList_concat (as : List String) (a : String) : ofList (as ++ [a]) = (ofList as).add a := by
  simp [ofList]

theorem add_of_sets (args : Arguments) (h : Sets a key value) :
    args.add a = { args with flags := setFlag args.flags key value } := by
  simp [add, flag?_of_sets h]

theorem add_of_plain (args : Arguments) (h : Plain a) :
    args.add a = { args with positional := args.positional ++ [a] } := by
  simp [add, flag?_eq_none_iff.mpr h]

theorem sets_or_plain (a : String) : (∃ key value, Sets a key value) ∨ Plain a := by
  by_cases h : Plain a
  · exact .inr h
  · simp only [Plain, not_forall, not_not] at h
    exact .inl h

theorem ofList_nodup (as : List String) : ((ofList as).flags.map Prod.fst).Nodup := by
  induction as using List.reverseRecOn with
  | nil => exact List.nodup_nil
  | append_singleton as a ih =>
    rw [ofList_concat]
    rcases sets_or_plain a with ⟨key, value, hsets⟩ | hplain
    · rw [add_of_sets _ hsets]
      exact setFlag_nodup ih
    · rw [add_of_plain _ hplain]
      exact ih

theorem flag_ofList_iff :
    (ofList as).flag key = some value ↔ (key, value) ∈ (ofList as).flags :=
  lookup_eq_some_iff_mem (ofList_nodup as)

theorem positional_ofList (as : List String) : (ofList as).positional = as.filter (Plain ·) := by
  induction as using List.reverseRecOn with
  | nil => rfl
  | append_singleton as a ih =>
    rw [ofList_concat, List.filter_append]
    rcases sets_or_plain a with ⟨key, value, hsets⟩ | hplain
    · have hnot : ¬ Plain a := fun hplain => hplain key value hsets
      rw [add_of_sets _ hsets]
      simpa [hnot] using ih
    · rw [add_of_plain _ hplain]
      simpa [hplain] using ih

/-- The last of the arguments that sets a flag gives it this value. -/
def LastSets (as : List String) (key value : String) : Prop :=
  ∃ before a after, as = before ++ a :: after ∧ Sets a key value ∧
    ∀ later ∈ after, ∀ value, ¬ Sets later key value

theorem lastSets_concat_iff :
    LastSets (as ++ [a]) key value ↔
      Sets a key value ∨ ((∀ value, ¬ Sets a key value) ∧ LastSets as key value) := by
  constructor
  · rintro ⟨before, b, after, heq, hsets, hlater⟩
    rcases List.eq_nil_or_concat after with rfl | ⟨middle, c, rfl⟩
    · obtain ⟨-, hlast⟩ := List.append_inj' heq rfl
      rw [List.singleton_inj.mp hlast]
      exact .inl hsets
    · rw [List.concat_eq_append, ← List.cons_append, ← List.append_assoc] at heq
      obtain ⟨hfront, hlast⟩ := List.append_inj' heq rfl
      rw [List.singleton_inj.mp hlast]
      refine .inr ⟨hlater c (by simp), before, b, middle, hfront, hsets, ?_⟩
      intro later hmem
      exact hlater later (by simp [hmem])
  · rintro (hsets | ⟨hnot, before, b, after, rfl, hsets, hlater⟩)
    · exact ⟨as, a, [], rfl, hsets, by simp⟩
    · refine ⟨before, b, after ++ [a], by simp, hsets, ?_⟩
      intro later hmem
      rcases List.mem_append.mp hmem with hmem | hmem
      · exact hlater later hmem
      · rw [List.mem_singleton.mp hmem]
        exact hnot

theorem flag_ofList (as : List String) (key value : String) :
    (ofList as).flag key = some value ↔ LastSets as key value := by
  rw [flag_ofList_iff]
  induction as using List.reverseRecOn with
  | nil => simp [ofList, empty, LastSets]
  | append_singleton as a ih =>
    rw [ofList_concat, lastSets_concat_iff, ← ih]
    rcases sets_or_plain a with ⟨key', value', hsets⟩ | hplain
    · rw [add_of_sets _ hsets, mem_setFlag_iff]
      constructor
      · rintro (⟨rfl, rfl⟩ | ⟨hne, hmem⟩)
        · exact .inl hsets
        · exact .inr ⟨fun _ hsame => hne (hsame.unique hsets).1, hmem⟩
      · rintro (hsame | ⟨hnot, hmem⟩)
        · exact .inl (hsame.unique hsets)
        · exact .inr ⟨fun he => hnot value' (he ▸ hsets), hmem⟩
    · have hnot : ∀ value, ¬ Sets a key value := hplain key
      simp [add_of_plain _ hplain, hnot]

/-! ### Arguments written from flags -/

def written : (String × String) ⊕ String → String
  | .inl (key, value) => "--" ++ key ++ "=" ++ value
  | .inr a => a

theorem ofList_written {es : List ((String × String) ⊕ String)}
    (hkeys : ((es.filterMap Sum.getLeft?).map Prod.fst).Nodup)
    (hset : ∀ key value, .inl (key, value) ∈ es → IsKey key ∧ OneLine value)
    (hplain : ∀ a, .inr a ∈ es → Plain a) :
    ofList (es.map written) = ⟨es.filterMap Sum.getLeft?, es.filterMap Sum.getRight?⟩ := by
  induction es using List.reverseRecOn with
  | nil => rfl
  | append_singleton es e ih =>
    simp only [List.filterMap_append, List.map_append] at hkeys
    obtain ⟨hfront, -, hnew⟩ := List.nodup_append.mp hkeys
    have hrest := ih hfront (fun key value hmem => hset key value (by simp [hmem]))
      (fun a hmem => hplain a (by simp [hmem]))
    rw [List.map_append, List.map_singleton, ofList_concat, hrest]
    rcases e with ⟨key, value⟩ | a
    · obtain ⟨hkey, hvalue⟩ := hset key value (by simp)
      have hmissing : key ∉ (es.filterMap Sum.getLeft?).map Prod.fst := fun hmem =>
        hnew key hmem key (by simp) rfl
      rw [written, add_of_sets _ (.valued hkey hvalue)]
      simp [setFlag_of_new hmissing]
    · rw [written, add_of_plain _ (hplain a (by simp))]
      simp

/-- A command line is read as its grammar says. Each key has one setting, the last, and what sets
nothing is positional, in its order. The reading is the only one, so the settings of distinct keys,
written out in any order among words that begin with no dashes, are read back as they were. -/
theorem ofCommandLine_grammar :
    (∀ argv : List String,
      ((ofCommandLine argv).flags.map Prod.fst).Nodup ∧
      (∀ key value, (ofCommandLine argv).flag key = some value ↔
        LastSets (argv.drop 2) key value) ∧
      (ofCommandLine argv).positional = (argv.drop 2).filter (Plain ·)) ∧
    (∀ a key value key' value', Sets a key value → Sets a key' value' →
      key = key' ∧ value = value') ∧
    ∀ (m : List (String × String)) (es : List ((String × String) ⊕ String)) (x y : String),
      (m.map Prod.fst).Nodup → (∀ setting ∈ m, IsKey setting.1 ∧ OneLine setting.2) →
      (es.filterMap Sum.getLeft?).Perm m →
      (∀ a ∈ es.filterMap Sum.getRight?, ¬ "--".toList <+: a.toList) →
      (ofCommandLine (x :: y :: es.map written)).flags.Perm m ∧
      (∀ key value, (ofCommandLine (x :: y :: es.map written)).flag key = some value ↔
        (key, value) ∈ m) ∧
      (ofCommandLine (x :: y :: es.map written)).positional = es.filterMap Sum.getRight? := by
  refine ⟨fun argv => ⟨ofList_nodup _, flag_ofList _, positional_ofList _⟩,
    fun _ _ _ _ _ => Sets.unique, ?_⟩
  intro m es x y hkeys hset hperm hplain
  have hdistinct : ((es.filterMap Sum.getLeft?).map Prod.fst).Nodup :=
    (hperm.map Prod.fst).nodup_iff.mpr hkeys
  have hparsed : ofCommandLine (x :: y :: es.map written) =
      ⟨es.filterMap Sum.getLeft?, es.filterMap Sum.getRight?⟩ := by
    apply ofList_written hdistinct
    · intro key value hmem
      exact hset _ (hperm.mem_iff.mp (List.mem_filterMap.mpr ⟨_, hmem, rfl⟩))
    · intro a hmem
      exact plain_of_no_dashes (hplain a (List.mem_filterMap.mpr ⟨_, hmem, rfl⟩))
  refine ⟨hparsed ▸ hperm, fun key value => ?_, by rw [hparsed]⟩
  rw [hparsed, ← hperm.mem_iff]
  exact lookup_eq_some_iff_mem hdistinct

theorem ofCommandLine_grammar_shuffled :
    let m := [("ipf", "20"), ("out", "a=b.png")]
    let es := [.inr "pong.ch8", .inl ("out", "a=b.png"), .inr "-v", .inl ("ipf", "20")]
    (ofCommandLine ("node" :: "run_rom.ts" :: es.map written)).flags.Perm m ∧
      (ofCommandLine ("node" :: "run_rom.ts" :: es.map written)).positional =
        ["pong.ch8", "-v"] := by
  have h := ofCommandLine_grammar.2.2 [("ipf", "20"), ("out", "a=b.png")]
    [.inr "pong.ch8", .inl ("out", "a=b.png"), .inr "-v", .inl ("ipf", "20")]
    "node" "run_rom.ts" (by decide) (by decide) (by decide) (by decide)
  exact ⟨h.1, h.2.2⟩

end Chip8.Arguments
