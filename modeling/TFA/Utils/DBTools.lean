/-
  The insert commands for the database (`DBTools.cc`).

  Three tables are filled, with a row for each indirect call, for each function of a set of
  targets, and for each function whose address is taken.  The commands insert several rows
  each; the row after which the last command ends is found by counting.

  * `icallRow`, `callerRow` and `funcRow` are the texts of the rows, and the three builders
    give the commands;
  * `forFirstSets` is the loop over the sets whose hash is new, which is made twice:
    `callerCommands_eq` says what both passes select;
  * `insertsBatched_iff`: the commands have each row once exactly if the counters do not
    wrap.  The one of the last table is compared with a number of 32 bits.
-/
import TFA.CallGraph.MLTA
import TFA.Lib.Batches

namespace TFA

open Batches

/-! ## The texts -/

def quoted (text : String) : String := "\"" ++ text ++ "\""

/-- The text for a result of the type analysis. -/
def TypeAnalyzeResult.text : TypeAnalyzeResult → String
  | .TypeEscape => "TypeEscape"
  | .OneLayer => "OneLayer"
  | .TwoLayer => "TwoLayer"
  | .ThreeLayer => "ThreeLayer"
  | .NoTwoLayerInfo => "NoTwoLayerInfo"
  | .MissingBaseType => "MissingBaseType"
  | .MixedLayer => "MixedLayer"
  | .VTable => "VTable"

namespace AliasFailureReasons

/-- The text for an indirect call. -/
def icallText : AliasFailureReasons → String
  | none => "No need to analysis"
  | F_has_no_global_definition => "F has no global def"
  | binary_operation => "Binary operation"
  | llvm_used => "llvm_used"
  | exceed_max => "exceed_max"
  | inline_asm => "inline_asm"
  | init_in_asm => "init_in_asm"
  | strip_invariant_group => "strip_invariant_group"
  | success | ignore_analysis => "unknown"

/-- The text for a function. -/
def funcText : AliasFailureReasons → String
  | success => "success"
  | ignore_analysis => "ignore_analysis"
  | reason => reason.icallText

end AliasFailureReasons

/-! ## The commands -/

/-- The results, with maps and sets in the order of their iteration; a key without an entry
    has the first value of its type. -/
structure ResultMaps where
  ICallees : List (Value × List Func)
  Global_AddressTaken_Func_Set : List Func
  Global_MLTA_Reualt_Map : Value → TypeAnalyzeResult := fun _ => .TypeEscape
  Global_Alias_Results_Map : Value → ℤ := fun _ => 0
  Global_ICall_Alias_Result_Map : Value → AliasFailureReasons := fun _ => .none
  Global_Func_Alias_Result_Map : Func → AliasFailureReasons := fun _ => .none
  Global_Func_Alias_Frequency_Map : Func → Finset Value := fun _ => ∅
  getInstLineNo : Value → ℕ
  getInstFilename : Value → String
  /-- the function of an instruction -/
  getFunction : Value → Func
  getName : Func → String
  str_hash : String → ℕ
  nodup_calls : (ICallees.map Prod.fst).Nodup
  nodup_targets : ∀ e ∈ ICallees, e.2.Nodup
  nodup_funcs : Global_AddressTaken_Func_Set.Nodup

/-- The prefix of a command that inserts into a table. -/
def insertInto (table columns : String) : String :=
  "insert into " ++ table ++ " " ++ "(" ++ columns ++ ") values "

/-- The prefix for the table of the indirect calls. -/
def icallPrefix : String :=
  insertInto "icall_target_table"
    "line_number, caller_func, target_num, MLTA_result, Alias_result, target_set_hash, file_location"

/-- The prefix for the table of the sets of targets. -/
def callerPrefix : String := insertInto "caller_table" "func_set_hash, func_name"

/-- The prefix for the table of the functions. -/
def funcPrefix : String := insertInto "func_table" "func_name, Alias_result, frequency"

namespace ResultMaps

section
variable (m : ResultMaps) (batch_size : ℕ)

/-- `funcSetHash`, in 64 bits. -/
def funcSetHash (fset : List Func) : ℕ :=
  (fset.map fun f => m.str_hash (m.getName f)).sum % 2 ^ 64

/-- The row of an indirect call. -/
def icallRow (e : Value × List Func) : String :=
  "(" ++ toString (m.getInstLineNo e.1) ++ "," ++ quoted (m.getName (m.getFunction e.1)) ++ "," ++
    toString e.2.length ++ "," ++ quoted (m.Global_MLTA_Reualt_Map e.1).text ++ "," ++
    (if m.Global_Alias_Results_Map e.1 = 1 then quoted "success"
      else quoted (m.Global_ICall_Alias_Result_Map e.1).icallText) ++
    "," ++ quoted (toString (m.funcSetHash e.2)) ++ "," ++ quoted (m.getInstFilename e.1) ++ ")"

/-- `build_insert_batch_for_icall_table`; both counters have 32 bits. -/
def build_insert_batch_for_icall_table : List String :=
  commands icallPrefix batch_size
    (fun icallid => toUnsigned icallid = toUnsigned m.ICallees.length) (m.ICallees.map m.icallRow)

/-- A loop over the sets that have functions and a new hash. -/
def forFirstSets {σ : Type} (body : List Func → σ → σ) (s : σ) : σ :=
  (m.ICallees.foldl (fun (r : Finset ℕ × σ) e =>
    if e.2 = [] ∨ m.funcSetHash e.2 ∈ r.1 then r
    else (insert (m.funcSetHash e.2) r.1, body e.2 r.2)) (∅, s)).2

/-- The row of a function in a set of targets. -/
def callerRow (fset : List Func) (f : Func) : String :=
  "(" ++ quoted (toString (m.funcSetHash fset)) ++ "," ++ quoted (m.getName f) ++ ")"

/-- The number of rows, from the first pass. -/
def icallnum : ℕ := m.forFirstSets (fun fset icallnum => (icallnum + fset.length) % 2 ^ 64) 0

/-- `build_insert_batch_for_caller_table`; both counters have 64 bits. -/
def build_insert_batch_for_caller_table : List String :=
  (m.forFirstSets (fun fset s =>
    fset.foldl (fun s f =>
      addRow callerPrefix batch_size (fun icallid => icallid % 2 ^ 64 = m.icallnum) s
        (m.callerRow fset f)) s) (start callerPrefix)).cmds

/-- The indirect calls that a function is a target of, with those that were recorded
    before. -/
def recordFrequency : Func → Finset Value :=
  m.ICallees.foldl (fun frequency e =>
    e.2.foldl (fun frequency f => Function.update frequency f (insert e.1 (frequency f))) frequency)
    m.Global_Func_Alias_Frequency_Map

/-- The row of a function. -/
def funcRow (f : Func) : String :=
  "(" ++ quoted (m.getName f) ++ "," ++ quoted (m.Global_Func_Alias_Result_Map f).funcText ++ "," ++
    toString (m.recordFrequency f).card ++ ")"

/-- `build_insert_batch_for_func_table`; the number of rows has 32 bits and the counter
    64. -/
def build_insert_batch_for_func_table : List String :=
  commands funcPrefix batch_size
    (fun icallid => icallid % 2 ^ 64 = toUnsigned m.Global_AddressTaken_Func_Set.length)
    (m.Global_AddressTaken_Func_Set.map m.funcRow)

/-! ## Each row once -/

/-- The sets that have functions and a hash that none of these before them has. -/
def firstSets : List (List Func) → List (List Func)
  | [] => []
  | fset :: fsets =>
    if fset = [] then firstSets fsets
    else fset :: (firstSets fsets).filter fun fset' => m.funcSetHash fset' ≠ m.funcSetHash fset

/-- The rows of the functions in the first sets. -/
def callerRows : List String :=
  (m.firstSets (m.ICallees.map Prod.snd)).flatMap fun fset => fset.map (m.callerRow fset)

/-- All three builders write each row once, in commands that are not too large. -/
def InsertsBatched : Prop :=
  Batched icallPrefix batch_size (m.ICallees.map m.icallRow)
      (m.build_insert_batch_for_icall_table batch_size) ∧
    Batched callerPrefix batch_size m.callerRows
      (m.build_insert_batch_for_caller_table batch_size) ∧
    Batched funcPrefix batch_size (m.Global_AddressTaken_Func_Set.map m.funcRow)
      (m.build_insert_batch_for_func_table batch_size)

/-- The counters find the last row, or need not. -/
structure CountersFit : Prop where
  calls : m.ICallees.length ≤ 2 ^ 32
  targets : ((m.firstSets (m.ICallees.map Prod.snd)).map List.length).sum ≤ 2 ^ 64
  funcs : m.Global_AddressTaken_Func_Set.length < 2 ^ 32 ∨
    m.Global_AddressTaken_Func_Set.length = 2 ^ 64 ∨
    m.Global_AddressTaken_Func_Set.length < 2 ^ 64 ∧
      2 ^ 32 ∣ m.Global_AddressTaken_Func_Set.length ∧
      batch_size ∣ m.Global_AddressTaken_Func_Set.length

end

section
variable {m : ResultMaps} {batch_size : ℕ}

/-- A loop over the first sets. -/
theorem forFirstSets_eq {σ : Type} (body : List Func → σ → σ) (s : σ) :
    m.forFirstSets body s =
      (m.firstSets (m.ICallees.map Prod.snd)).foldl (fun s fset => body fset s) s := by
  have hloop (l : List (Value × List Func)) (seen : Finset ℕ) (s : σ) :
      (l.foldl (fun (r : Finset ℕ × σ) e =>
        if e.2 = [] ∨ m.funcSetHash e.2 ∈ r.1 then r
        else (insert (m.funcSetHash e.2) r.1, body e.2 r.2)) (seen, s)).2 =
      ((m.firstSets (l.map Prod.snd)).filter fun fset => m.funcSetHash fset ∉ seen).foldl
        (fun s fset => body fset s) s := by
    induction l generalizing seen s with
    | nil => rfl
    | cons e l ih =>
      rw [List.foldl_cons, List.map_cons, firstSets]
      by_cases hempty : e.2 = []
      · simp only [hempty, true_or, if_true]
        exact ih seen s
      · -- later sets of this hash are passed over
        have hrest : (((m.firstSets (l.map Prod.snd)).filter fun fset =>
            m.funcSetHash fset ≠ m.funcSetHash e.2).filter fun fset =>
              m.funcSetHash fset ∉ seen) =
            (m.firstSets (l.map Prod.snd)).filter fun fset =>
              m.funcSetHash fset ∉ insert (m.funcSetHash e.2) seen := by
          rw [List.filter_filter]
          refine List.filter_congr fun fset _ => ?_
          simp [and_comm]
        by_cases hseen : m.funcSetHash e.2 ∈ seen
        · rw [Finset.insert_eq_of_mem hseen] at hrest
          simp only [hempty, hseen, or_true, if_true, if_false]
          rw [List.filter_cons_of_neg (by simpa using hseen), hrest]
          exact ih seen s
        · simp only [hempty, hseen, or_self, if_false]
          rw [List.filter_cons_of_pos (by simpa using hseen), hrest, List.foldl_cons]
          exact ih _ _
  simpa [forFirstSets] using hloop m.ICallees ∅ s

/-- The first pass counts the rows. -/
theorem icallnum_eq : m.icallnum =
    ((m.firstSets (m.ICallees.map Prod.snd)).map List.length).sum % 2 ^ 64 := by
  have hsum (fsets : List (List Func)) (n : ℕ) :
      fsets.foldl (fun icallnum fset => (icallnum + fset.length) % 2 ^ 64) (n % 2 ^ 64) =
        (n + (fsets.map List.length).sum) % 2 ^ 64 := by
    induction fsets generalizing n with
    | nil => simp
    | cons fset fsets ih =>
      rw [List.foldl_cons, Nat.mod_add_mod, ih, List.map_cons, List.sum_cons, add_assoc]
  rw [icallnum, forFirstSets_eq]
  simpa using hsum (m.firstSets (m.ICallees.map Prod.snd)) 0

theorem length_callerRows :
    m.callerRows.length = ((m.firstSets (m.ICallees.map Prod.snd)).map List.length).sum := by
  simp [callerRows, List.length_flatMap]

/-- Both passes go through the same sets. -/
theorem callerCommands_eq : m.build_insert_batch_for_caller_table batch_size =
    commands callerPrefix batch_size
      (fun icallid => icallid % 2 ^ 64 = m.callerRows.length % 2 ^ 64) m.callerRows := by
  rw [build_insert_batch_for_caller_table, forFirstSets_eq, commands, length_callerRows,
    ← icallnum_eq, callerRows, List.foldl_flatMap]
  simp only [List.foldl_map]

/-! ## The counters -/

theorem length_insertInto_ne_zero {table columns : String} :
    (insertInto table columns).length ≠ 0 := by
  have hinsert : "insert into ".length = 12 := rfl
  unfold insertInto
  simp only [String.length_append]
  omega

/-- Counters of one width. -/
theorem counters_iff {n w : ℕ} :
    (∀ j, 0 < j → j < n → j % 2 ^ w ≠ n % 2 ^ w) ↔ n ≤ 2 ^ w := by
  have hpos := Nat.two_pow_pos w
  constructor
  · intro h
    by_contra hgt
    -- one round before
    exact h (n - 2 ^ w) (by omega) (by omega) (Nat.mod_eq_sub_mod (by omega)).symm
  · intro hle j hj hlt heq
    rw [Nat.mod_eq_of_lt (show j < 2 ^ w by omega)] at heq
    rcases Nat.lt_or_eq_of_le hle with hlt' | rfl
    · rw [Nat.mod_eq_of_lt hlt'] at heq
      omega
    · rw [Nat.mod_self] at heq
      omega

/-- A counter of 64 bits and a number of 32. -/
theorem counters_unsigned_iff {n : ℕ} :
    ((∀ j, 0 < j → j < n → j % 2 ^ 64 ≠ toUnsigned n) ∧
      (n % 2 ^ 64 = toUnsigned n ∨ batch_size ∣ n)) ↔
      n < 2 ^ 32 ∨ n = 2 ^ 64 ∨ n < 2 ^ 64 ∧ 2 ^ 32 ∣ n ∧ batch_size ∣ n := by
  unfold toUnsigned
  constructor
  · rintro ⟨hlast, hend⟩
    by_cases hsmall : n < 2 ^ 32
    · exact Or.inl hsmall
    · have hzero : n % 2 ^ 32 = 0 := by
        by_contra hpos
        exact hlast (n % 2 ^ 32) (by omega) (by omega) (by omega)
      have hle : n ≤ 2 ^ 64 := by
        by_contra hgt
        exact hlast (2 ^ 64) (by omega) (by omega) (by omega)
      rcases hend with hend | hend
      · exact Or.inr (Or.inl (by omega))
      · rcases Nat.lt_or_eq_of_le hle with hlt | heq
        · exact Or.inr (Or.inr ⟨hlt, Nat.dvd_of_mod_eq_zero hzero, hend⟩)
        · exact Or.inr (Or.inl heq)
  · rintro (hsmall | rfl | ⟨hlt, hdvd, hbatch⟩)
    · exact ⟨fun j _ _ => by omega, Or.inl (by omega)⟩
    · exact ⟨fun j _ _ => by omega, Or.inl (by omega)⟩
    · have hzero := Nat.mod_eq_zero_of_dvd hdvd
      exact ⟨fun j _ _ => by omega, Or.inr hbatch⟩

theorem icallBatched_iff (hbatch : 1 ≤ batch_size) :
    Batched icallPrefix batch_size (m.ICallees.map m.icallRow)
      (m.build_insert_batch_for_icall_table batch_size) ↔ m.ICallees.length ≤ 2 ^ 32 := by
  rw [build_insert_batch_for_icall_table,
    @batched_iff icallPrefix _ _ _ length_insertInto_ne_zero hbatch, List.length_map,
    ← counters_iff]
  simp only [decide_eq_false_iff_not, decide_true, true_or, and_true, ne_eq]
  rfl

theorem callerBatched_iff (hbatch : 1 ≤ batch_size) :
    Batched callerPrefix batch_size m.callerRows
      (m.build_insert_batch_for_caller_table batch_size) ↔
      ((m.firstSets (m.ICallees.map Prod.snd)).map List.length).sum ≤ 2 ^ 64 := by
  rw [callerCommands_eq, @batched_iff callerPrefix _ _ _ length_insertInto_ne_zero hbatch,
    ← length_callerRows, ← counters_iff]
  simp only [decide_eq_false_iff_not, decide_true, true_or, and_true, ne_eq]

theorem funcBatched_iff (hbatch : 1 ≤ batch_size) :
    Batched funcPrefix batch_size (m.Global_AddressTaken_Func_Set.map m.funcRow)
      (m.build_insert_batch_for_func_table batch_size) ↔
      m.Global_AddressTaken_Func_Set.length < 2 ^ 32 ∨
        m.Global_AddressTaken_Func_Set.length = 2 ^ 64 ∨
        m.Global_AddressTaken_Func_Set.length < 2 ^ 64 ∧
          2 ^ 32 ∣ m.Global_AddressTaken_Func_Set.length ∧
          batch_size ∣ m.Global_AddressTaken_Func_Set.length := by
  rw [build_insert_batch_for_func_table,
    @batched_iff funcPrefix _ _ _ length_insertInto_ne_zero hbatch, List.length_map,
    ← counters_unsigned_iff]
  simp only [decide_eq_false_iff_not, decide_eq_true_eq, ne_eq]

end

/-- **Inserts.**  All rows are inserted once exactly if the counters find the last row or need
    not. -/
theorem insertsBatched_iff (m : ResultMaps) {batch_size : ℕ} (hbatch : 1 ≤ batch_size) :
    m.InsertsBatched batch_size ↔ m.CountersFit batch_size := by
  unfold InsertsBatched
  rw [icallBatched_iff hbatch, callerBatched_iff hbatch, funcBatched_iff hbatch]
  exact ⟨fun ⟨calls, targets, funcs⟩ => ⟨calls, targets, funcs⟩,
    fun h => ⟨h.calls, h.targets, h.funcs⟩⟩

/-- Functions whose address is taken, and no indirect call. -/
def ofFuncs (n : ℕ) : ResultMaps where
  ICallees := []
  Global_AddressTaken_Func_Set := List.range n
  getInstLineNo _ := 0
  getInstFilename _ := ""
  getFunction _ := 0
  getName f := "f" ++ toString f
  str_hash name := name.length
  nodup_calls := List.nodup_nil
  nodup_targets := by simp
  nodup_funcs := List.nodup_range

theorem length_ofFuncs (n : ℕ) : (ofFuncs n).Global_AddressTaken_Func_Set.length = n :=
  List.length_range

/-- Three rows in batches of two. -/
theorem insertsBatched_three : (ofFuncs 3).InsertsBatched 2 := by
  refine (insertsBatched_iff (ofFuncs 3) (by decide)).2 ⟨by decide, ?_, Or.inl ?_⟩
  · simp [ofFuncs, firstSets]
  · rw [length_ofFuncs]
    decide

/-- With `2 ^ 32 + 1` functions the first row is taken for the last one. -/
theorem first_taken_for_last :
    ¬ ∀ (m : ResultMaps) (batch_size : ℕ), 1 ≤ batch_size → m.InsertsBatched batch_size := by
  intro h
  obtain ⟨-, -, hbatched⟩ := h (ofFuncs (2 ^ 32 + 1)) 500 (by decide)
  have hfuncs := (funcBatched_iff (by decide)).1 hbatched
  rw [length_ofFuncs] at hfuncs
  omega

end ResultMaps

end TFA
