/-
  The keys of the indirect calls of one function (`callInfoHash` in `CallGraphTools.cc`,
  `doModulePass` in `CallGraph.cc`).

  The key of a call ends with its line and its number in the function, which are written
  one after the other.  A second call with the key of a first one is skipped as a copy of
  it.

  * `callInfoHash_eq_iff`: two calls of a function have one key exactly if their files are
    the same, up to blanks, and their lines and numbers are written alike;
  * `noFalseDuplicate_iff`: no call is skipped for another one exactly if no line has the
    digits of another one in front, with the rest of them in front of the number of the
    other call.
-/
import TFA.CallGraph.Duplicates
import TFA.Lib.Decimals

namespace TFA

open Decimals

namespace CallProgram

section
variable (P : CallProgram)

/-- What `doModulePass` does for a function. -/
def visitBody (g : CallGraph) (F : Func) : CallGraph :=
  ((P.insts F).foldl (P.visitCall F) (g, 0)).1

/-- The number of the next indirect call, after some instructions. -/
def nextNumber (Is : List Value) : ℕ := (Is.filter P.isCounted).length + 1

/-- The indirect calls of a function, with their numbers. -/
def Numbered (F : Func) (CI : Value) (id : ℕ) : Prop :=
  ∃ Is₁ Is₂, P.insts F = Is₁ ++ CI :: Is₂ ∧ P.isCounted CI = true ∧ id = P.nextNumber Is₁

/-- A call that comes after `Is₁` is analysed, and its targets are entered. -/
def GetsEntries (F : Func) (g : CallGraph) (Is₁ : List Value) (CI : Value) : Prop :=
  let s := Is₁.foldl (P.visitCall F) (g, 0)
  let FS := (P.findCalleesWithMLTA s.1.layers CI).2
  let g' := (P.visitCall F s CI).1
  P.callInfoHash CI F (s.2 + 1) ∉ s.1.globalFuncNameMap (P.getName F) ∧
    g'.Callees CI = FS ∧ g'.ICallees CI = FS ∧ ∀ f ∈ FS, CI ∈ g'.Callers f

/-- Calls with different lines or numbers have different keys, and every call gets entries
    of its own. -/
def NoFalseDuplicate (F : Func) (g : CallGraph) : Prop :=
  (∀ CI id CI' id', P.Numbered F CI id → P.Numbered F CI' id' →
    (P.getInstLineNo CI, id) ≠ (P.getInstLineNo CI', id') →
      P.callInfoHash CI F id ≠ P.callInfoHash CI' F id') ∧
  ∀ Is₁ CI Is₂, P.insts F = Is₁ ++ CI :: Is₂ → P.isCounted CI = true → P.GetsEntries F g Is₁ CI

/-- The line of a call in the same file continues that of another call with the first
    digits of the number of the latter. -/
def Ambiguous (F : Func) : Prop :=
  ∃ CI id CI' id', P.Numbered F CI id ∧ P.Numbered F CI' id' ∧
    withoutBlanks (P.getInstFilename CI) = withoutBlanks (P.getInstFilename CI') ∧
    Extends (P.getInstLineNo CI) id (P.getInstLineNo CI') id'

end

section
variable {P : CallProgram} {m : LayerMaps} {Ms : List LLVMModule} {g : CallGraph}
  {F G : Func} {CI CI' : Value} {id id' : ℕ} {Fs : List Func} {Is : List Value}

/-! ## The keys -/

/-- The characters of a key. -/
theorem toList_callInfoHash (CI : Value) (F : Func) (id : ℕ) :
    (P.callInfoHash CI F id).toList =
      (P.getInstFilename CI).toList.filter (· ≠ ' ') ++
        ((P.T.print (P.getFunctionType F)).toList ++ (P.getName F).toList).filter (· ≠ ' ') ++
        (Nat.toDigits 10 (P.getInstLineNo CI) ++ Nat.toDigits 10 id) := by
  simp [callInfoHash, withoutBlanks]

/-- **The keys.**  The parentheses of the function type keep the file from what follows. -/
theorem callInfoHash_eq_iff (hparen : '(' ∈ (P.T.print (P.getFunctionType F)).toList) :
    P.callInfoHash CI F id = P.callInfoHash CI' F id' ↔
      withoutBlanks (P.getInstFilename CI) = withoutBlanks (P.getInstFilename CI') ∧
      (P.getInstLineNo CI = P.getInstLineNo CI' ∧ id = id' ∨
        Extends (P.getInstLineNo CI) id (P.getInstLineNo CI') id' ∨
        Extends (P.getInstLineNo CI') id' (P.getInstLineNo CI) id) := by
  have hmiddle : ∃ c ∈ ((P.T.print (P.getFunctionType F)).toList ++
      (P.getName F).toList).filter (· ≠ ' '), ¬ c.isDigit = true := by
    refine ⟨'(', List.mem_filter.2 ⟨List.mem_append_left _ hparen, rfl⟩, by decide⟩
  have hdigits : ∀ l i : ℕ, ∀ c ∈ Nat.toDigits 10 l ++ Nat.toDigits 10 i, c.isDigit = true := by
    intro l i c hc
    rcases List.mem_append.1 hc with hc | hc
    · exact Nat.isDigit_of_mem_toDigits (by omega) (by omega) hc
    · exact Nat.isDigit_of_mem_toDigits (by omega) (by omega) hc
  have hfile : withoutBlanks (P.getInstFilename CI) = withoutBlanks (P.getInstFilename CI') ↔
      (P.getInstFilename CI).toList.filter (· ≠ ' ') =
        (P.getInstFilename CI').toList.filter (· ≠ ' ') := by
    rw [withoutBlanks, withoutBlanks, ← String.toList_inj, String.toList_ofList,
      String.toList_ofList]
  rw [← String.toList_inj, toList_callInfoHash, toList_callInfoHash,
    append_append_inj hmiddle (hdigits _ _) (hdigits _ _), toDigits_append_eq_iff, hfile]

/-- Different calls have different numbers. -/
theorem nextNumber_lt {Js Ks : List Value} (hcounted : P.isCounted CI = true) :
    P.nextNumber Js < P.nextNumber (Js ++ CI :: Ks) := by
  simp only [nextNumber, List.filter_append, List.filter_cons, hcounted, if_true,
    List.length_append, List.length_cons]
  omega

/-! ## The names that have been seen -/

/-- The calls of other functions are kept apart. -/
theorem globalFuncNameMap_visitCall_of_ne (h : P.getName G ≠ P.getName F) :
    (P.visitCall G (g, id) CI).1.globalFuncNameMap (P.getName F) =
      g.globalFuncNameMap (P.getName F) := by
  rcases P.visitCall_cases G g id CI with heq | ⟨-, hseen, heq⟩ | ⟨-, -, heq⟩
  · rw [heq]
  · rw [heq, visitIndirectCall, if_neg hseen]
    exact Function.update_of_ne (Ne.symm h) _ _
  · rw [heq]
    rfl

/-- A function whose name has not been seen has no keys. -/
theorem globalFuncNameMap_of_first (hfirst : ∀ G ∈ Fs, P.getName G ≠ P.getName F) :
    (Fs.foldl P.visitBody (P.initCallGraph m Ms)).globalFuncNameMap (P.getName F) = ∅ := by
  refine List.foldlRecOn Fs P.visitBody
    (motive := fun g => g.globalFuncNameMap (P.getName F) = ∅) ?_ ?_
  · rfl
  intro g hg G hG
  refine insts_induction (I := fun g => g.globalFuncNameMap (P.getName F) = ∅) ?_ hg
  intro CI _ g id hg
  rw [globalFuncNameMap_visitCall_of_ne (hfirst G hG), hg]

/-- **One pass over a body.**  After some instructions, the number and the keys are those of
    the indirect calls among them. -/
theorem seen_prefix (hg : g.globalFuncNameMap (P.getName F) = ∅) (Is : List Value) :
    (Is.foldl (P.visitCall F) (g, 0)).2 + 1 = P.nextNumber Is ∧
    ∀ hash ∈ (Is.foldl (P.visitCall F) (g, 0)).1.globalFuncNameMap (P.getName F),
      ∃ Js CI Ks, Is = Js ++ CI :: Ks ∧ P.isCounted CI = true ∧
        hash = P.callInfoHash CI F (P.nextNumber Js) := by
  induction Is using List.reverseRecOn with
  | nil => exact ⟨rfl, by simp [hg]⟩
  | append_singleton Is CI ih =>
    obtain ⟨hnumber, hkeys⟩ := ih
    rw [List.foldl_append, List.foldl_cons, List.foldl_nil]
    generalize Is.foldl (P.visitCall F) (g, 0) = s at hnumber hkeys ⊢
    obtain ⟨g', n⟩ := s
    have hbefore : ∀ hash ∈ g'.globalFuncNameMap (P.getName F),
        ∃ Js CI' Ks, Is ++ [CI] = Js ++ CI' :: Ks ∧ P.isCounted CI' = true ∧
          hash = P.callInfoHash CI' F (P.nextNumber Js) := by
      intro hash hhash
      obtain ⟨Js, CI', Ks, rfl, hcounted, heq⟩ := hkeys hash hhash
      exact ⟨Js, CI', Ks ++ [CI], by simp, hcounted, heq⟩
    cases hcounted : P.isCounted CI with
    | false =>
      obtain ⟨hid, hnames, -⟩ := visitCall_of_not_isCounted F g' n hcounted
      refine ⟨?_, ?_⟩
      · rw [hid, hnumber]
        simp [nextNumber, hcounted]
      · rw [hnames]
        exact hbefore
    | true =>
      rw [visitCall_of_isCounted hcounted]
      refine ⟨?_, ?_⟩
      · dsimp only
        rw [hnumber]
        simp [nextNumber, hcounted]
      · intro hash hhash
        unfold visitIndirectCall at hhash
        dsimp only at hhash hnumber
        split at hhash
        case isTrue => exact hbefore hash hhash
        case isFalse =>
          simp only [Function.update_self, Finset.mem_insert] at hhash
          rcases hhash with rfl | hhash
          · exact ⟨Is, CI, [], rfl, hcounted, by rw [hnumber]⟩
          · exact hbefore hash hhash

/-- A call whose key is new gets its entries. -/
theorem getsEntries_of_new {Is₁ : List Value} (hcounted : P.isCounted CI = true)
    (hnew : P.callInfoHash CI F ((Is₁.foldl (P.visitCall F) (g, 0)).2 + 1) ∉
      (Is₁.foldl (P.visitCall F) (g, 0)).1.globalFuncNameMap (P.getName F)) :
    P.GetsEntries F g Is₁ CI := by
  unfold GetsEntries
  generalize Is₁.foldl (P.visitCall F) (g, 0) = s at hnew ⊢
  obtain ⟨g', n⟩ := s
  dsimp only at hnew ⊢
  rw [visitCall_of_isCounted hcounted, visitIndirectCall, if_neg hnew]
  refine ⟨hnew, Function.update_self _ _ _, Function.update_self _ _ _, ?_⟩
  intro f hf
  dsimp only
  rw [if_pos hf]
  exact Finset.mem_insert_self _ _

/-! ## The calls of a function -/

/-- **False duplicates.**  In a function whose name is new, no indirect call is taken for
    another one exactly if the lines and the numbers of no two of them are ambiguous. -/
theorem noFalseDuplicate_iff (hparen : '(' ∈ (P.T.print (P.getFunctionType F)).toList)
    (hfirst : ∀ G ∈ Fs, P.getName G ≠ P.getName F) :
    P.NoFalseDuplicate F (Fs.foldl P.visitBody (P.initCallGraph m Ms)) ↔ ¬ P.Ambiguous F := by
  constructor
  · rintro ⟨hkeys, -⟩ ⟨CI, id, CI', id', hCI, hCI', hfile, hext⟩
    have hpair : (P.getInstLineNo CI, id) ≠ (P.getInstLineNo CI', id') := by
      intro heq
      obtain ⟨hl, d, hd, hline, -⟩ := hext
      have hpow : 0 < 10 ^ width d := Nat.pow_pos (by omega)
      have hlt := Nat.le_mul_of_pos_right (P.getInstLineNo CI) hpow
      have hsame := (Prod.mk.inj heq).1
      omega
    exact hkeys CI id CI' id' hCI hCI' hpair
      ((callInfoHash_eq_iff hparen).2 ⟨hfile, Or.inr (Or.inl hext)⟩)
  · intro hclear
    have hkeys : ∀ CI id CI' id', P.Numbered F CI id → P.Numbered F CI' id' →
        (P.getInstLineNo CI, id) ≠ (P.getInstLineNo CI', id') →
          P.callInfoHash CI F id ≠ P.callInfoHash CI' F id' := by
      intro CI id CI' id' hCI hCI' hpair heq
      obtain ⟨hfile, ⟨hline, hid⟩ | hext | hext⟩ := (callInfoHash_eq_iff hparen).1 heq
      · exact hpair (by rw [hline, hid])
      · exact hclear ⟨CI, id, CI', id', hCI, hCI', hfile, hext⟩
      · exact hclear ⟨CI', id', CI, id, hCI', hCI, hfile.symm, hext⟩
    refine ⟨hkeys, ?_⟩
    intro Is₁ CI Is₂ hIs hcounted
    have hnone : (Fs.foldl P.visitBody (P.initCallGraph m Ms)).globalFuncNameMap (P.getName F) =
        ∅ := globalFuncNameMap_of_first hfirst
    obtain ⟨hnumber, hseen⟩ := seen_prefix hnone Is₁
    refine getsEntries_of_new hcounted ?_
    intro hmem
    obtain ⟨Js, CI', Ks, hJs, hcounted', heq⟩ := hseen _ hmem
    rw [hnumber] at heq
    -- the other call comes before, so that its number is smaller
    have hlt : P.nextNumber Js < P.nextNumber Is₁ := by
      rw [hJs]
      exact nextNumber_lt hcounted'
    refine hkeys CI _ CI' _ ⟨Is₁, Is₂, hIs, hcounted, rfl⟩
      ⟨Js, Ks ++ CI :: Is₂, ?_, hcounted', rfl⟩ ?_ heq
    · rw [hIs, hJs]
      simp
    · intro hpair
      have hid := (Prod.mk.inj hpair).2
      omega

end

/-! ## A loop with eleven calls -/

/-- `for (i = 0; i < n; next(i)) { .. }`: the body has ten calls through a pointer, the
    first one in line 121, and the header, which is run after the body, has one in
    line `header`. -/
def loopWithCalls (header : ℕ) : CallProgram where
  toProgram :=
    { Program.ofTable
        ((.function, []) :: (.argument, []) :: List.replicate 11 (.instruction .call, [1]))
        (by decide) with
      getName := fun v => if v = 0 then "run" else ""
      insts := fun F => if F = 0 then [2, 3, 4, 5, 6, 7, 8, 9, 10, 11, 12] else []
      isDeclaration := fun _ => false }
  T := TypeTable.ofNames fun _ => "void()"
  getType _ := 0
  getInstLineNo v := if v = 12 then header else 119 + v

/-- The call in line 12 has the number 11, that in line 121 the number 1. -/
theorem callInfoHash_collides :
    ¬ ∀ (P : CallProgram) (m : LayerMaps) (Ms : List LLVMModule) (Fs : List Func) (F : Func),
      '(' ∈ (P.T.print (P.getFunctionType F)).toList →
      (∀ G ∈ Fs, P.getName G ≠ P.getName F) →
      P.NoFalseDuplicate F (Fs.foldl P.visitBody (P.initCallGraph m Ms)) := by
  intro h
  have hkeys := (h (loopWithCalls 12) {} [] [] 0 (by decide) (by simp)).1
  have hfirst : (loopWithCalls 12).Numbered 0 2 1 :=
    ⟨[], [3, 4, 5, 6, 7, 8, 9, 10, 11, 12], rfl, by decide, rfl⟩
  have hlast : (loopWithCalls 12).Numbered 0 12 11 :=
    ⟨[2, 3, 4, 5, 6, 7, 8, 9, 10, 11], [], rfl, by decide, by decide⟩
  exact hkeys 2 1 12 11 hfirst hlast (by decide) (by decide)

/-- With the header in line 13, and after a function with another name. -/
theorem noFalseDuplicate_iff_loopWithCalls :
    (loopWithCalls 13).NoFalseDuplicate 0
      (([1] : List Func).foldl (loopWithCalls 13).visitBody
        ((loopWithCalls 13).initCallGraph {} [])) ↔
      ¬ (loopWithCalls 13).Ambiguous 0 :=
  noFalseDuplicate_iff (by decide) (by decide)

end CallProgram

end TFA
