/-
  What the tables say (`update_database` in `DBTools.cc`).

  The targets of a call are not in its row.  The row has a hash of the set of targets, and the
  table of the sets has a row with this hash for each function, once for all calls with the
  hash.  So the targets are looked up by the hash.

  * `icallTuple`, `callerTuple` and `funcTuple` are the values in the rows;
  * `readTables_eq`: the values are read back from the commands, if no name has a quote or
    a backslash in it;
  * `targetsOf_callerTuples`: what is looked up is the first set with the hash;
  * `callTargets_readTables_iff`: this gives the targets of all calls exactly if calls whose
    sets have the same hash have functions of the same names as targets.
-/
import TFA.Utils.DBTools
import TFA.Lib.Decimals
import TFA.Lib.Tuples

namespace TFA

open Batches Decimals Tuples

/-- The tables, as lists of rows. -/
structure Tables where
  icall_target_table : List (List Datum)
  caller_table : List (List Datum)
  func_table : List (List Datum)

namespace Tables

/-- The names of the functions that are in the set with a hash. -/
def targetsOf (T : Tables) (target_set_hash : Option Datum) : Multiset String :=
  T.caller_table.filterMap fun row =>
    match row with
    | [func_set_hash, .text func_name] =>
      if some func_set_hash = target_set_hash then some func_name else none
    | _ => none

/-- The targets of all calls; the hash is in the sixth column. -/
def callTargets (T : Tables) : List (Multiset String) :=
  T.icall_target_table.map fun row => T.targetsOf row[5]?

end Tables

namespace ResultMaps

section
variable (m : ResultMaps) (batch_size : ℕ)

/-! ## The values -/

/-- The row of an indirect call. -/
def icallTuple (e : Value × List Func) : List Datum :=
  [.num (m.getInstLineNo e.1), .text (m.getName (m.getFunction e.1)), .num e.2.length,
    .text (m.Global_MLTA_Reualt_Map e.1).text,
    .text (if m.Global_Alias_Results_Map e.1 = 1 then "success"
      else (m.Global_ICall_Alias_Result_Map e.1).icallText),
    .text (toString (m.funcSetHash e.2)), .text (m.getInstFilename e.1)]

/-- The row of a function in a set of targets. -/
def callerTuple (fset : List Func) (f : Func) : List Datum :=
  [.text (toString (m.funcSetHash fset)), .text (m.getName f)]

/-- The row of a function. -/
def funcTuple (f : Func) : List Datum :=
  [.text (m.getName f), .text (m.Global_Func_Alias_Result_Map f).funcText,
    .num (m.recordFrequency f).card]

/-- The rows of the functions in the first sets. -/
def callerTuples : List (List Datum) :=
  (m.firstSets (m.ICallees.map Prod.snd)).flatMap fun fset => fset.map (m.callerTuple fset)

/-- The tables as the commands fill them. -/
def readTables : Option Tables := do
  let icalls ← readCommands icallPrefix (m.build_insert_batch_for_icall_table batch_size)
  let callers ← readCommands callerPrefix (m.build_insert_batch_for_caller_table batch_size)
  let funcs ← readCommands funcPrefix (m.build_insert_batch_for_func_table batch_size)
  return ⟨icalls, callers, funcs⟩

/-- The names of the functions in a set of targets. -/
def names (fset : List Func) : Multiset String := fset.map m.getName

/-- Calls whose sets have the same hash have targets of the same names. -/
def HashesApart : Prop :=
  ∀ e ∈ m.ICallees, ∀ e' ∈ m.ICallees, m.funcSetHash e.2 = m.funcSetHash e'.2 →
    m.names e.2 = m.names e'.2

instance : Decidable m.HashesApart := inferInstanceAs (Decidable (∀ e ∈ _, ∀ e' ∈ _, _))

/-- The functions that are looked for have names of their own. -/
def NamesApart : Prop :=
  ∀ f ∈ m.Global_AddressTaken_Func_Set, ∀ e ∈ m.ICallees, ∀ f' ∈ e.2,
    m.getName f' = m.getName f → f' = f

instance : Decidable m.NamesApart :=
  inferInstanceAs (Decidable (∀ f ∈ _, ∀ e ∈ m.ICallees, ∀ f' ∈ e.2, _ → _))

/-- The names of functions and files have no quotes and no backslashes. -/
structure PlainNames : Prop where
  callers : ∀ e ∈ m.ICallees, (Datum.text (m.getName (m.getFunction e.1))).Plain
  files : ∀ e ∈ m.ICallees, (Datum.text (m.getInstFilename e.1)).Plain
  targets : ∀ e ∈ m.ICallees, ∀ f ∈ e.2, (Datum.text (m.getName f)).Plain
  funcs : ∀ f ∈ m.Global_AddressTaken_Func_Set, (Datum.text (m.getName f)).Plain

end

section
variable {m : ResultMaps} {batch_size : ℕ} {e : Value × List Func} {fset : List Func} {f : Func}

theorem icallRow_eq : m.icallRow e = write (m.icallTuple e) := by
  unfold icallRow icallTuple write
  rw [← String.toList_inj]
  split <;> simp [Datum.write, quoted]

theorem callerRow_eq : m.callerRow fset f = write (m.callerTuple fset f) := by
  simp [callerRow, callerTuple, write, Datum.write, quoted, String.append_assoc]

theorem funcRow_eq : m.funcRow f = write (m.funcTuple f) := by
  simp [funcRow, funcTuple, write, Datum.write, quoted, String.append_assoc]

theorem callerRows_eq : m.callerRows = m.callerTuples.map write := by
  have hrow (fset : List Func) : m.callerRow fset = write ∘ m.callerTuple fset :=
    funext fun _ => callerRow_eq
  simp only [callerRows, callerTuples, List.map_flatMap, List.map_map, hrow]

/-! ## The texts of the results -/

theorem plain_typeText (r : TypeAnalyzeResult) : (Datum.text r.text).Plain := by
  cases r <;> simp [Datum.Plain, TypeAnalyzeResult.text]

theorem plain_icallText (r : AliasFailureReasons) : (Datum.text r.icallText).Plain := by
  cases r <;> simp [Datum.Plain, AliasFailureReasons.icallText]

theorem plain_funcText (r : AliasFailureReasons) : (Datum.text r.funcText).Plain := by
  cases r <;> simp [Datum.Plain, AliasFailureReasons.funcText, AliasFailureReasons.icallText]

theorem plain_digits (n : ℕ) : (Datum.text (toString n)).Plain := by
  intro c hc
  have hdigit : c.isDigit = true :=
    Nat.isDigit_of_mem_toDigits (by omega) (by omega) (Nat.toList_repr ▸ hc)
  constructor
  · rintro rfl
    exact absurd hdigit (by decide)
  · rintro rfl
    exact absurd hdigit (by decide)

/-! ## The tables are read back -/

/-- The first sets are some of the sets. -/
theorem firstSets_subset {fsets : List (List Func)} : m.firstSets fsets ⊆ fsets := by
  induction fsets with
  | nil => exact List.Subset.refl _
  | cons fset fsets ih =>
    rw [firstSets]
    split
    · exact List.Subset.trans ih (List.subset_cons_self _ _)
    · exact List.cons_subset_cons _ (List.Subset.trans (List.filter_subset_self _) ih)

theorem plain_icallTuple (h : m.PlainNames) (he : e ∈ m.ICallees) : Plain (m.icallTuple e) := by
  refine ⟨by simp [icallTuple], fun d hd => ?_⟩
  simp only [icallTuple, List.mem_cons, List.not_mem_nil, or_false] at hd
  rcases hd with rfl | rfl | rfl | rfl | rfl | rfl | rfl
  · trivial
  · exact h.callers e he
  · trivial
  · exact plain_typeText _
  · split
    · exact plain_funcText .success
    · exact plain_icallText _
  · exact plain_digits _
  · exact h.files e he

theorem plain_callerTuple (h : m.PlainNames) {t : List Datum} (ht : t ∈ m.callerTuples) :
    Plain t := by
  obtain ⟨fset, hfset, hf⟩ := List.mem_flatMap.1 ht
  obtain ⟨f, hmem, rfl⟩ := List.mem_map.1 hf
  obtain ⟨e, he, rfl⟩ := List.mem_map.1 (firstSets_subset hfset)
  refine ⟨by simp [callerTuple], fun d hd => ?_⟩
  simp only [callerTuple, List.mem_cons, List.not_mem_nil, or_false] at hd
  rcases hd with rfl | rfl
  · exact plain_digits _
  · exact h.targets e he f hmem

theorem plain_funcTuple (h : m.PlainNames) (hf : f ∈ m.Global_AddressTaken_Func_Set) :
    Plain (m.funcTuple f) := by
  refine ⟨by simp [funcTuple], fun d hd => ?_⟩
  simp only [funcTuple, List.mem_cons, List.not_mem_nil, or_false] at hd
  rcases hd with rfl | rfl | rfl
  · exact h.funcs f hf
  · exact plain_funcText _
  · trivial

/-- The commands have the rows, and the rows are read back. -/
theorem readTables_eq (hbatch : 1 ≤ batch_size) (hfit : m.CountersFit batch_size)
    (h : m.PlainNames) : m.readTables batch_size = some
      ⟨m.ICallees.map m.icallTuple, m.callerTuples,
        m.Global_AddressTaken_Func_Set.map m.funcTuple⟩ := by
  have hicalls := (icallBatched_iff hbatch).2 hfit.calls
  have hcallers := (callerBatched_iff hbatch).2 hfit.targets
  have hfuncs := (funcBatched_iff hbatch).2 hfit.funcs
  have hicallRow : m.icallRow = write ∘ m.icallTuple := funext fun _ => icallRow_eq
  have hfuncRow : m.funcRow = write ∘ m.funcTuple := funext fun _ => funcRow_eq
  rw [hicallRow, ← List.map_map] at hicalls
  rw [callerRows_eq] at hcallers
  rw [hfuncRow, ← List.map_map] at hfuncs
  unfold readTables
  rw [readCommands_of_batched hicalls (List.forall_mem_map.2 fun _ => plain_icallTuple h),
    readCommands_of_batched hcallers fun _ => plain_callerTuple h,
    readCommands_of_batched hfuncs (List.forall_mem_map.2 fun _ => plain_funcTuple h)]
  rfl

/-! ## The targets are looked up -/

/-- What is left out has nothing in it. -/
theorem flatMap_filter {α β : Type} {l : List α} {p : α → Bool} {g : α → List β}
    (h : ∀ a ∈ l, p a = false → g a = []) : (l.filter p).flatMap g = l.flatMap g := by
  induction l with
  | nil => rfl
  | cons a l ih =>
    have hl := ih fun b hb => h b (by simp [hb])
    cases hp : p a with
    | true => rw [List.filter_cons_of_pos hp, List.flatMap_cons, List.flatMap_cons, hl]
    | false =>
      rw [List.filter_cons_of_neg (by simp [hp]), List.flatMap_cons, h a (by simp) hp, hl,
        List.nil_append]

/-- The functions that are recorded for a hash are those of the first set with it. -/
theorem flatMap_firstSets (fsets : List (List Func)) (hash : ℕ) :
    ((m.firstSets fsets).flatMap fun fset =>
      if m.funcSetHash fset = hash then fset else []) =
      (fsets.find? fun fset => fset ≠ [] ∧ m.funcSetHash fset = hash).getD [] := by
  induction fsets with
  | nil => rfl
  | cons fset fsets ih =>
    rw [firstSets]
    by_cases hempty : fset = []
    · rw [if_pos hempty, ih, List.find?_cons_of_neg (by simp [hempty])]
    · rw [if_neg hempty, List.flatMap_cons]
      by_cases hhash : m.funcSetHash fset = hash
      · have hrest : ∀ fset' ∈ (m.firstSets fsets).filter fun fset' =>
            m.funcSetHash fset' ≠ m.funcSetHash fset,
            (if m.funcSetHash fset' = hash then fset' else []) = [] := by
          intro fset' hmem
          have hne := (List.mem_filter.1 hmem).2
          rw [if_neg (by simpa [hhash] using hne)]
        rw [if_pos hhash, List.find?_cons_of_pos (by simp [hempty, hhash]),
          List.flatMap_eq_nil_iff.2 hrest, List.append_nil]
        rfl
      · -- the sets that are left out have another hash as well
        have hskip : ∀ fset' ∈ m.firstSets fsets,
            decide (m.funcSetHash fset' ≠ m.funcSetHash fset) = false →
            (if m.funcSetHash fset' = hash then fset' else []) = [] := by
          intro fset' _ hsame
          rw [if_neg]
          intro heq
          rw [heq] at hsame
          exact hhash (not_not.1 (of_decide_eq_false hsame)).symm
        rw [if_neg hhash, List.find?_cons_of_neg (by simp [hhash]), List.nil_append,
          flatMap_filter hskip, ih]

/-- Of the calls that have a hash, those with no targets aside, the first one decides. -/
theorem targetsOf_callerTuples (T : Tables) (hT : T.caller_table = m.callerTuples) (hash : ℕ) :
    T.targetsOf (some (.text (toString hash))) =
      m.names (((m.ICallees.map Prod.snd).find? fun fset =>
        fset ≠ [] ∧ m.funcSetHash fset = hash).getD []) := by
  have hrows (fset : List Func) : (fset.map (m.callerTuple fset)).filterMap (fun row =>
      match row with
      | [func_set_hash, .text func_name] =>
        if some func_set_hash = some (Datum.text (toString hash)) then some func_name else none
      | _ => none) = (if m.funcSetHash fset = hash then fset else []).map m.getName := by
    by_cases hhash : m.funcSetHash fset = hash
    · simp [List.filterMap_map, callerTuple, hhash, Function.comp_def]
    · have hne : toString (m.funcSetHash fset) ≠ toString hash := by
        intro heq
        have hdigits := congrArg String.toList heq
        rw [Nat.toString_eq_repr, Nat.toString_eq_repr, Nat.toList_repr, Nat.toList_repr] at hdigits
        exact hhash (toDigits_inj hdigits)
      simp [-Nat.toString_eq_repr, List.filterMap_map, callerTuple, hhash, hne, Function.comp_def]
  rw [← flatMap_firstSets, names, List.map_flatMap, Tables.targetsOf, hT, callerTuples,
    List.filterMap_flatMap]
  simp only [hrows]

theorem targetsOf_eq (T : Tables) (hT : T.caller_table = m.callerTuples) (h : m.HashesApart)
    (he : e ∈ m.ICallees) :
    T.targetsOf (some (.text (toString (m.funcSetHash e.2)))) = m.names e.2 := by
  rw [targetsOf_callerTuples T hT]
  cases hfind : (m.ICallees.map Prod.snd).find? fun fset =>
      fset ≠ [] ∧ m.funcSetHash fset = m.funcSetHash e.2 with
  | some fset =>
    obtain ⟨e', he', rfl⟩ := List.mem_map.1 (List.mem_of_find?_eq_some hfind)
    have hsome := List.find?_some hfind
    simp only [ne_eq, decide_eq_true_eq] at hsome
    exact h e' he' e he hsome.2
  | none =>
    have hnone := List.find?_eq_none.1 hfind e.2 (List.mem_map_of_mem he)
    have hempty : e.2 = [] := by simpa using hnone
    rw [hempty]
    rfl

theorem callTargets_eq (T : Tables) (hicalls : T.icall_target_table = m.ICallees.map m.icallTuple)
    (hcallers : T.caller_table = m.callerTuples) (h : m.HashesApart) :
    T.callTargets = m.ICallees.map fun e => m.names e.2 := by
  rw [Tables.callTargets, hicalls, List.map_map]
  exact List.map_congr_left fun e he => targetsOf_eq T hcallers h he

/-! ## The frequencies -/

/-- What has been recorded before, and the calls with the function as a target. -/
theorem mem_recordFrequency {CI : Value} : CI ∈ m.recordFrequency f ↔
    CI ∈ m.Global_Func_Alias_Frequency_Map f ∨ ∃ e ∈ m.ICallees, e.1 = CI ∧ f ∈ e.2 := by
  have hcall (CI' : Value) (fset : List Func) (frequency : Func → Finset Value) :
      CI ∈ fset.foldl (fun frequency f => Function.update frequency f (insert CI' (frequency f)))
        frequency f ↔ CI ∈ frequency f ∨ CI' = CI ∧ f ∈ fset := by
    induction fset generalizing frequency with
    | nil => simp
    | cons f' fset ih =>
      rw [List.foldl_cons, ih]
      by_cases hf : f = f'
      · subst hf
        simp only [Function.update_self, Finset.mem_insert, List.mem_cons, true_or, and_true]
        tauto
      · simp only [Function.update_of_ne hf, List.mem_cons, hf, false_or]
  have hloop (l : List (Value × List Func)) (frequency : Func → Finset Value) :
      CI ∈ l.foldl (fun frequency e =>
        e.2.foldl (fun frequency f => Function.update frequency f (insert e.1 (frequency f)))
          frequency) frequency f ↔ CI ∈ frequency f ∨ ∃ e ∈ l, e.1 = CI ∧ f ∈ e.2 := by
    induction l generalizing frequency with
    | nil => simp
    | cons e l ih =>
      rw [List.foldl_cons, ih, hcall]
      simp only [List.mem_cons, exists_eq_or_imp, or_assoc]
  exact hloop m.ICallees m.Global_Func_Alias_Frequency_Map

/-- A call is counted once. -/
theorem card_recordFrequency (hnew : m.Global_Func_Alias_Frequency_Map f = ∅) :
    (m.recordFrequency f).card = m.ICallees.countP fun e => f ∈ e.2 := by
  have hcalls : m.recordFrequency f =
      ((m.ICallees.filter fun e => f ∈ e.2).map Prod.fst).toFinset := by
    ext CI
    rw [mem_recordFrequency, hnew]
    simp only [Finset.notMem_empty, false_or, List.mem_toFinset, List.mem_map, List.mem_filter,
      decide_eq_true_eq]
    exact exists_congr fun e => by tauto
  have hnodup : ((m.ICallees.filter fun e => f ∈ e.2).map Prod.fst).Nodup :=
    m.nodup_calls.sublist (List.filter_sublist.map _)
  rw [hcalls, List.toFinset_card_of_nodup hnodup, List.length_map, List.countP_eq_length_filter]

theorem mem_names_iff (h : m.NamesApart) (hf : f ∈ m.Global_AddressTaken_Func_Set)
    (he : e ∈ m.ICallees) : m.getName f ∈ m.names e.2 ↔ f ∈ e.2 := by
  rw [names, Multiset.mem_coe, List.mem_map]
  constructor
  · rintro ⟨f', hf', hname⟩
    rwa [← h f hf e he f' hf' hname]
  · intro hmem
    exact ⟨f, hmem, rfl⟩

end

/-- **The targets in the tables.**  All calls have their targets in the tables exactly if
    those whose sets have the same hash have targets of the same names. -/
theorem callTargets_readTables_iff (m : ResultMaps) {batch_size : ℕ} (hbatch : 1 ≤ batch_size)
    (hfit : m.CountersFit batch_size) (hplain : m.PlainNames) :
    (m.readTables batch_size).map Tables.callTargets =
        some (m.ICallees.map fun e => m.names e.2) ↔ m.HashesApart := by
  rw [readTables_eq hbatch hfit hplain, Option.map_some, Option.some.injEq]
  constructor
  · intro h e he e' he' hhash
    rw [Tables.callTargets, List.map_map, List.map_inj_left] at h
    -- what is looked up depends on the hash only
    rw [← h e he, ← h e' he']
    simp only [Function.comp_apply, icallTuple, List.getElem?_cons_succ, List.getElem?_cons_zero,
      hhash]
  · intro h
    exact callTargets_eq _ rfl rfl h

/-- Two calls with the same targets and one with another. -/
def threeCalls : ResultMaps where
  ICallees := [(0, [0, 1]), (1, [1, 0]), (2, [2])]
  Global_AddressTaken_Func_Set := [0, 1, 2]
  getInstLineNo CI := CI + 10
  getInstFilename _ := "hook.c"
  getFunction _ := 3
  getName f := String.ofList (List.replicate (2 ^ f) 'f')
  str_hash name := name.length
  nodup_calls := by decide
  nodup_targets := by decide
  nodup_funcs := by decide

theorem countersFit_threeCalls : threeCalls.CountersFit 2 :=
  ⟨by decide, by decide, Or.inl (by decide)⟩

theorem plainNames_threeCalls : threeCalls.PlainNames := by
  have hname (f : Func) : (Datum.text (threeCalls.getName f)).Plain := by
    intro c hc
    have hf : c = 'f' := by
      rw [threeCalls, String.toList_ofList] at hc
      exact List.eq_of_mem_replicate hc
    subst hf
    decide
  exact ⟨fun _ _ => hname _, fun _ _ => by simp [Datum.Plain, threeCalls], fun _ _ _ _ => hname _,
    fun _ _ => hname _⟩

/-- The set of the second call is that of the first one, in another order. -/
theorem callTargets_readTables_threeCalls :
    (threeCalls.readTables 2).map Tables.callTargets =
      some [{"f", "ff"}, {"f", "ff"}, {"ffff"}] := by
  have h := (callTargets_readTables_iff threeCalls (by decide) countersFit_threeCalls
    plainNames_threeCalls).2 (by decide)
  rw [h]
  decide

/-- **The tables agree.**  The frequency of a function is the number of the calls that have
    its name among the targets that are looked up. -/
theorem frequency_readTables (m : ResultMaps) {batch_size : ℕ} (hbatch : 1 ≤ batch_size)
    (hfit : m.CountersFit batch_size) (hplain : m.PlainNames) (hhash : m.HashesApart)
    (hnames : m.NamesApart) (hnew : ∀ f, m.Global_Func_Alias_Frequency_Map f = ∅) :
    ∃ T, m.readTables batch_size = some T ∧
      T.func_table = m.Global_AddressTaken_Func_Set.map fun f =>
        [.text (m.getName f), .text (m.Global_Func_Alias_Result_Map f).funcText,
          .num (T.callTargets.countP fun targets => m.getName f ∈ targets)] := by
  refine ⟨_, readTables_eq hbatch hfit hplain, List.map_congr_left fun f hf => ?_⟩
  rw [callTargets_eq _ rfl rfl hhash, List.countP_map, funcTuple, card_recordFrequency (hnew f)]
  congr 4
  refine List.countP_congr fun e he => ?_
  simp only [Function.comp_apply, decide_eq_true_eq]
  exact (mem_names_iff hnames hf he).symm

theorem frequency_readTables_threeCalls :
    ∃ T, threeCalls.readTables 2 = some T ∧
      T.func_table = [0, 1, 2].map fun f =>
        [.text (threeCalls.getName f), .text "No need to analysis",
          .num (T.callTargets.countP fun targets => threeCalls.getName f ∈ targets)] :=
  frequency_readTables threeCalls (by decide) countersFit_threeCalls plainNames_threeCalls
    (by decide) (by decide) fun _ => rfl

end ResultMaps

end TFA
