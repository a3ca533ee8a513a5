/-
  Two calls on one map of signatures (`getOneLayerResult` in `TypeAnalysis.cc`,
  `resolveVariableParameters` in `CPPHandler.cc`).

  The matches of a variadic call are written to the bucket of its type.  A later call finds
  this bucket among the others, and one function of it stands for all of them, as if they
  had one type.  Which one, is up to the order of the set: `first` is any choice.

  * `oneLayerBy`: the result for a choice of the functions that are checked;
  * `OrderFree`: a call leaves the result of another one as it is, and the buckets are kept
    to functions that pass the check;
  * `Uniform`: the first functions speak for the others, and the second call accepts the
    types that the first one accepts, unless it does not accept the one that comes first;
  * `orderFree_iff`: the one holds exactly if the other does.
-/
import TFA.CallGraph.ModulePass

namespace TFA

open LayerMaps

namespace CallProgram

section
variable (P : CallProgram) (first : Key → Finset Func → Option Func) (m : LayerMaps)

/-- Does the type of a call end in variable parameters? -/
def isVariadic (CI : Value) : Bool :=
  ",...)".toList.isSuffixOf (P.T.print (P.getFunctionType CI)).toList

/-- The check of a function against a call. -/
def passesCheck (CI : Value) (f : Func) : Bool :=
  P.validFuncTy m (P.getFunctionType CI) (P.getFunctionType f)

/-- The function that is checked for a bucket passes. -/
def bucketPasses (CI : Value) (k : Key) : Bool :=
  (first k (m.sigFuncsMap k)).any (P.passesCheck m CI)

/-- The functions of the buckets that pass. -/
def matched (CI : Value) : Finset Func :=
  (P.sigKeys.filter fun k => P.bucketPasses first m CI k).biUnion m.sigFuncsMap

/-- The matches of a call are written to its bucket. -/
def fillBucket (CI : Value) : LayerMaps :=
  { m with
    sigFuncsMap := Function.update m.sigFuncsMap (P.callHash CI)
      (m.sigFuncsMap (P.callHash CI) ∪ P.matched first m CI) }

/-- Is the bucket of the call filled by the resolution? -/
def Resolved (CI : Value) : Prop :=
  P.isVariadic CI = true ∧ m.sigFuncsMap (P.callHash CI) = ∅

instance (CI : Value) : Decidable (P.Resolved m CI) := inferInstanceAs (Decidable (_ ∧ _))

/-- The maps after `getOneLayerResult`, for a choice of the functions that are checked. -/
def afterOneLayerBy (CI : Value) : LayerMaps :=
  if P.Resolved m CI then P.fillBucket first m CI else m

/-- `getOneLayerResult`, for a choice of the functions that are checked. -/
def oneLayerBy (CI : Value) : Finset Func :=
  (P.afterOneLayerBy first m CI).sigFuncsMap (P.callHash CI)

/-- The bucket of a call has only functions that pass the check of the call. -/
def BucketsMatch : Prop :=
  ∀ CI, P.isIndirectCall CI = true → ∀ f ∈ m.sigFuncsMap (P.callHash CI), P.passesCheck m CI f

/-- The first call changes nothing for the second one, and after both the buckets match. -/
def OrderFree (CI1 CI2 : Value) : Prop :=
  P.oneLayerBy first (P.afterOneLayerBy first m CI1) CI2 = P.oneLayerBy first m CI2 ∧
    P.BucketsMatch (P.afterOneLayerBy first (P.afterOneLayerBy first m CI1) CI2)

/-- The function that is checked for a bucket speaks for all of it, at every call that
    prints its type like this one. -/
def Speaks (CI : Value) : Prop :=
  ∀ k ∈ P.sigKeys, P.bucketPasses first m CI k → ∀ f ∈ m.sigFuncsMap k,
    ∀ CI', P.isIndirectCall CI' = true → P.callHash CI' = P.callHash CI → P.passesCheck m CI' f

/-- The function is recorded for a type that the type of the call may be cast to: one of
    its buckets passes. -/
def Accepts (CI : Value) (f : Func) : Prop :=
  ∃ k ∈ P.sigKeys, P.bucketPasses first m CI k = true ∧ f ∈ m.sigFuncsMap k

/-- Of the functions that the first call accepts, the one that comes first passes the check
    of the second call. -/
def FirstPasses (CI1 CI2 : Value) : Prop :=
  ∃ S : Finset Func, (∀ f, f ∈ S ↔ P.Accepts first m CI1 f) ∧
    ∃ f, first (P.callHash CI1) S = some f ∧ P.passesCheck m CI2 f = true

/-- All functions of a bucket have one type. -/
def OneType : Prop :=
  ∀ k, ∀ f ∈ m.sigFuncsMap k, ∀ g ∈ m.sigFuncsMap k, P.getFunctionType f = P.getFunctionType g

/-- What the types and buckets have to be like before the two calls. -/
structure Uniform (CI1 CI2 : Value) : Prop where
  /-- what is recorded under the type of a call passes its check -/
  recorded : P.BucketsMatch m
  /-- the functions that are checked speak for their buckets -/
  speaks1 : P.Resolved m CI1 → P.Speaks first m CI1
  speaks2 : P.Resolved m CI2 → P.Speaks first m CI2
  /-- if the first function passes at the second call, this accepts the types that the first
      call accepts -/
  between : P.Resolved m CI1 → P.Resolved m CI2 → P.callHash CI1 ≠ P.callHash CI2 →
    P.FirstPasses first m CI1 CI2 → ∀ f, P.Accepts first m CI1 f → P.Accepts first m CI2 f
  /-- calls of two modules that print the same accept the same, or the first one nothing -/
  same : P.Resolved m CI1 → P.callHash CI1 = P.callHash CI2 →
    (∀ f, ¬ P.Accepts first m CI1 f) ∨ ∀ f, P.Accepts first m CI1 f ↔ P.Accepts first m CI2 f

end

section
variable {P : CallProgram} {first : Key → Finset Func → Option Func} {m : LayerMaps}
  {CI CI1 CI2 : Value} {f : Func} {k : Key}

/-- `resolveVariableParameters` checks the first function in the order of the set. -/
theorem afterOneLayerBy_order :
    P.afterOneLayerBy (fun _ S => (P.order S).head?) m CI = P.afterOneLayer m CI := by
  unfold afterOneLayerBy afterOneLayer resolveVariableParameters
  by_cases hempty : m.sigFuncsMap (P.callHash CI) = ∅
  · rw [if_pos hempty]
    by_cases hvar : P.isVariadic CI = true
    · rw [if_pos ⟨hvar, hempty⟩]
      exact (if_pos hvar).symm
    · rw [if_neg fun h => hvar h.1]
      exact (if_neg hvar).symm
  · rw [if_neg fun h => hempty h.2, if_neg hempty]

theorem oneLayerBy_order :
    P.oneLayerBy (fun _ S => (P.order S).head?) m CI = P.getOneLayerResult m CI := by
  rw [oneLayerBy, afterOneLayerBy_order, getOneLayerResult]

theorem mem_matched : f ∈ P.matched first m CI ↔ P.Accepts first m CI f := by
  simp only [matched, Accepts, Finset.mem_biUnion, Finset.mem_filter, and_assoc]

theorem firstPasses_iff : P.FirstPasses first m CI1 CI2 ↔
    (first (P.callHash CI1) (P.matched first m CI1)).any (P.passesCheck m CI2) = true := by
  rw [Option.any_eq_true]
  constructor
  · rintro ⟨S, hS, hfirst⟩
    obtain rfl : S = P.matched first m CI1 := Finset.ext fun f => (hS f).trans mem_matched.symm
    exact hfirst
  · intro hfirst
    exact ⟨_, fun _ => mem_matched, hfirst⟩

/-- If all functions of a bucket have one type, a call accepts exactly the recorded functions
    that pass its check. -/
theorem accepts_iff (hfirst : ∀ k S, S.Nonempty → ∃ g ∈ S, first k S = some g)
    (hone : P.OneType m) :
    P.Accepts first m CI f ↔
      P.passesCheck m CI f = true ∧ ∃ k ∈ P.sigKeys, f ∈ m.sigFuncsMap k := by
  have hbucket : ∀ k, f ∈ m.sigFuncsMap k →
      (P.bucketPasses first m CI k = true ↔ P.passesCheck m CI f = true) := by
    intro k hf
    obtain ⟨g, hg, hfirst⟩ := hfirst k _ ⟨f, hf⟩
    have htype : P.getFunctionType g = P.getFunctionType f := hone k g hg f hf
    rw [bucketPasses, hfirst, Option.any_some, passesCheck, passesCheck, htype]
  constructor
  · rintro ⟨k, hk, hpass, hf⟩
    exact ⟨(hbucket k hf).1 hpass, k, hk, hf⟩
  · rintro ⟨hpass, k, hk, hf⟩
    exact ⟨k, hk, (hbucket k hf).2 hpass, hf⟩

/-- The key of a call is one of those that are looked at. -/
theorem callHash_mem_sigKeys (h : P.isIndirectCall CI = true) : P.callHash CI ∈ P.sigKeys := by
  have hvalues : CI ∈ P.values := by
    unfold isIndirectCall at h
    cases hCV : P.getCalledOperand CI with
    | none =>
      rw [hCV] at h
      cases h
    | some CV => exact (P.mem_values CV CI (List.mem_of_getLast? hCV)).2
  exact Finset.mem_biUnion.2 ⟨CI, hvalues, Finset.mem_insert_self _ _⟩

/-- Calls with one key are variadic together. -/
theorem resolved_congr (h : P.callHash CI1 = P.callHash CI2) :
    P.Resolved m CI1 ↔ P.Resolved m CI2 := by
  have hprint : P.T.print (P.getFunctionType CI1) = P.T.print (P.getFunctionType CI2) :=
    Key.type.inj h
  unfold Resolved isVariadic
  rw [h, hprint]

/-! ## What a resolution writes -/

theorem fillBucket_self (h : P.Resolved m CI) :
    (P.fillBucket first m CI).sigFuncsMap (P.callHash CI) = P.matched first m CI := by
  simp only [fillBucket, Function.update_self, h.2, Finset.empty_union]

theorem fillBucket_of_ne (h : k ≠ P.callHash CI) :
    (P.fillBucket first m CI).sigFuncsMap k = m.sigFuncsMap k :=
  Function.update_of_ne h _ _

theorem oneLayerBy_of_resolved (h : P.Resolved m CI) :
    P.oneLayerBy first m CI = P.matched first m CI := by
  rw [oneLayerBy, afterOneLayerBy, if_pos h, fillBucket_self h]

theorem oneLayerBy_of_not_resolved (h : ¬ P.Resolved m CI) :
    P.oneLayerBy first m CI = m.sigFuncsMap (P.callHash CI) := by
  rw [oneLayerBy, afterOneLayerBy, if_neg h]

/-- **The second resolution.**  It finds what it finds alone, and the bucket of the first
    call if the function that is checked for this passes. -/
theorem matched_fillBucket (h1 : P.Resolved m CI1) (hkey : P.callHash CI1 ∈ P.sigKeys) :
    P.matched first (P.fillBucket first m CI1) CI2 = P.matched first m CI2 ∪
      if (first (P.callHash CI1) (P.matched first m CI1)).any (P.passesCheck m CI2)
      then P.matched first m CI1 else ∅ := by
  have hother : ∀ k ≠ P.callHash CI1,
      P.bucketPasses first (P.fillBucket first m CI1) CI2 k = P.bucketPasses first m CI2 k := by
    intro k hk
    unfold bucketPasses
    rw [fillBucket_of_ne hk]
    rfl
  have hself : P.bucketPasses first (P.fillBucket first m CI1) CI2 (P.callHash CI1) =
      (first (P.callHash CI1) (P.matched first m CI1)).any (P.passesCheck m CI2) := by
    unfold bucketPasses
    rw [fillBucket_self h1]
    rfl
  ext f
  rw [Finset.mem_union, mem_matched, mem_matched]
  constructor
  · rintro ⟨k, hk, hpass, hf⟩
    by_cases heq : k = P.callHash CI1
    · subst heq
      rw [hself] at hpass
      rw [fillBucket_self h1] at hf
      exact Or.inr (by rwa [if_pos hpass])
    · rw [hother k heq] at hpass
      rw [fillBucket_of_ne heq] at hf
      exact Or.inl ⟨k, hk, hpass, hf⟩
  · rintro (⟨k, hk, hpass, hf⟩ | hf)
    · have heq : k ≠ P.callHash CI1 := by
        rintro rfl
        rw [h1.2] at hf
        exact absurd hf (Finset.notMem_empty f)
      exact ⟨k, hk, by rwa [hother k heq], by rwa [fillBucket_of_ne heq]⟩
    · split at hf
      case isTrue hpass => exact ⟨_, hkey, by rwa [hself], by rwa [fillBucket_self h1]⟩
      case isFalse => exact absurd hf (Finset.notMem_empty f)

/-- A call of another type is resolved before the fill if and only if it is after it. -/
theorem resolved_fillBucket (hne : P.callHash CI1 ≠ P.callHash CI2) :
    P.Resolved (P.fillBucket first m CI1) CI2 ↔ P.Resolved m CI2 := by
  unfold Resolved
  rw [fillBucket_of_ne hne.symm]

/-- A call of the same type is resolved again only if the fill found nothing. -/
theorem resolved_fillBucket_self (h1 : P.Resolved m CI1)
    (heq : P.callHash CI1 = P.callHash CI2) :
    P.Resolved (P.fillBucket first m CI1) CI2 ↔ P.matched first m CI1 = ∅ := by
  have h2 := (resolved_congr heq).1 h1
  have hbucket : (P.fillBucket first m CI1).sigFuncsMap (P.callHash CI1) = _ := fillBucket_self h1
  unfold Resolved
  rw [← heq, hbucket, and_iff_right h2.1]

/-- A fill that finds nothing changes nothing. -/
theorem fillBucket_of_matched_eq_empty (h : P.matched first m CI = ∅) :
    P.fillBucket first m CI = m := by
  unfold fillBucket
  rw [h, Finset.union_empty, Function.update_eq_self]

/-- **The same result.**  The second call gets the same set whether or not the first one
    has been analysed. -/
theorem oneLayerBy_afterOneLayerBy_iff (hcall1 : P.isIndirectCall CI1 = true) :
    P.oneLayerBy first (P.afterOneLayerBy first m CI1) CI2 = P.oneLayerBy first m CI2 ↔
      (P.Resolved m CI1 → P.Resolved m CI2 → P.callHash CI1 ≠ P.callHash CI2 →
        (first (P.callHash CI1) (P.matched first m CI1)).any (P.passesCheck m CI2) →
          P.matched first m CI1 ⊆ P.matched first m CI2) ∧
      (P.Resolved m CI1 → P.callHash CI1 = P.callHash CI2 →
        P.matched first m CI1 = ∅ ∨ P.matched first m CI1 = P.matched first m CI2) := by
  by_cases h1 : P.Resolved m CI1
  case neg =>
    rw [afterOneLayerBy, if_neg h1]
    exact iff_of_true rfl ⟨fun h => absurd h h1, fun h => absurd h h1⟩
  rw [afterOneLayerBy, if_pos h1]
  by_cases heq : P.callHash CI1 = P.callHash CI2
  · have h2 := (resolved_congr heq).1 h1
    have hsame : P.oneLayerBy first (P.fillBucket first m CI1) CI2 = P.oneLayerBy first m CI2 ↔
        P.matched first m CI1 = ∅ ∨ P.matched first m CI1 = P.matched first m CI2 := by
      by_cases hnone : P.matched first m CI1 = ∅
      · rw [fillBucket_of_matched_eq_empty hnone]
        exact iff_of_true rfl (Or.inl hnone)
      · have hkept : ¬ P.Resolved (P.fillBucket first m CI1) CI2 := by
          rwa [resolved_fillBucket_self h1 heq]
        rw [oneLayerBy_of_not_resolved hkept, oneLayerBy_of_resolved h2, ← heq,
          fillBucket_self h1, or_iff_right hnone]
    rw [hsame]
    exact ⟨fun h => ⟨fun _ _ hne => absurd heq hne, fun _ _ => h⟩, fun h => h.2 h1 heq⟩
  · have hother : P.oneLayerBy first (P.fillBucket first m CI1) CI2 = P.oneLayerBy first m CI2 ↔
        (P.Resolved m CI2 →
          (first (P.callHash CI1) (P.matched first m CI1)).any (P.passesCheck m CI2) →
            P.matched first m CI1 ⊆ P.matched first m CI2) := by
      by_cases h2 : P.Resolved m CI2
      · rw [oneLayerBy_of_resolved ((resolved_fillBucket heq).2 h2), oneLayerBy_of_resolved h2,
          matched_fillBucket h1 (callHash_mem_sigKeys hcall1), Finset.union_eq_left]
        split
        case isTrue hpass => exact ⟨fun h _ _ => h, fun h => h h2 hpass⟩
        case isFalse hfail =>
          exact iff_of_true (Finset.empty_subset _) fun _ hpass => absurd hpass hfail
      · rw [oneLayerBy_of_not_resolved (mt (resolved_fillBucket heq).1 h2),
          oneLayerBy_of_not_resolved h2, fillBucket_of_ne (Ne.symm heq)]
        exact iff_of_true rfl fun h => absurd h h2
    rw [hother]
    exact ⟨fun h => ⟨fun _ h2 _ => h h2, fun _ h => absurd h heq⟩, fun h h2 => h.1 h1 h2 heq⟩

/-! ## What the buckets keep -/

theorem speaks_iff : P.Speaks first m CI ↔ ∀ f ∈ P.matched first m CI, ∀ CI',
    P.isIndirectCall CI' = true → P.callHash CI' = P.callHash CI → P.passesCheck m CI' f := by
  constructor
  · intro h f hf
    obtain ⟨k, hk, hpass, hfk⟩ := mem_matched.1 hf
    exact h k hk hpass f hfk
  · intro h k hk hpass f hf
    exact h f (mem_matched.2 ⟨k, hk, hpass, hf⟩)

/-- A resolution keeps the buckets to what passes if the checked functions speak for
    theirs. -/
theorem bucketsMatch_afterOneLayerBy : P.BucketsMatch (P.afterOneLayerBy first m CI) ↔
    P.BucketsMatch m ∧ (P.Resolved m CI → P.Speaks first m CI) := by
  by_cases hres : P.Resolved m CI
  case neg =>
    rw [afterOneLayerBy, if_neg hres]
    exact ⟨fun h => ⟨h, fun h => absurd h hres⟩, fun h => h.1⟩
  rw [afterOneLayerBy, if_pos hres, speaks_iff]
  constructor
  · intro h
    refine ⟨?_, ?_⟩
    · intro CI' hcall f hf
      by_cases heq : P.callHash CI' = P.callHash CI
      · rw [heq, hres.2] at hf
        exact absurd hf (Finset.notMem_empty f)
      · exact h CI' hcall f (by rwa [fillBucket_of_ne heq])
    · intro _ f hf CI' hcall heq
      exact h CI' hcall f (by rwa [heq, fillBucket_self hres])
  · rintro ⟨hkeep, hfill⟩ CI' hcall f hf
    by_cases heq : P.callHash CI' = P.callHash CI
    · rw [heq, fillBucket_self hres] at hf
      exact hfill hres f hf CI' hcall heq
    · rw [fillBucket_of_ne heq] at hf
      exact hkeep CI' hcall f hf

/-- If the result of the second call stays as it is, its matches are those that it has
    alone. -/
theorem speaks_afterOneLayerBy_iff
    (hfree : P.oneLayerBy first (P.afterOneLayerBy first m CI1) CI2 = P.oneLayerBy first m CI2)
    (h1 : P.Resolved m CI1 → P.Speaks first m CI1) :
    (P.Resolved (P.afterOneLayerBy first m CI1) CI2 →
        P.Speaks first (P.afterOneLayerBy first m CI1) CI2) ↔
      (P.Resolved m CI2 → P.Speaks first m CI2) := by
  by_cases hres : P.Resolved m CI1
  case neg => rw [afterOneLayerBy, if_neg hres]
  rw [afterOneLayerBy, if_pos hres] at hfree ⊢
  by_cases hagain : P.Resolved (P.fillBucket first m CI1) CI2
  · have h2 : P.Resolved m CI2 := by
      by_cases heq : P.callHash CI1 = P.callHash CI2
      · exact (resolved_congr heq).1 hres
      · exact (resolved_fillBucket heq).1 hagain
    rw [oneLayerBy_of_resolved hagain, oneLayerBy_of_resolved h2] at hfree
    rw [imp_iff_right hagain, imp_iff_right h2, speaks_iff, speaks_iff, hfree]
    rfl
  · refine iff_of_true (fun h => absurd h hagain) fun h2 => ?_
    -- the second call finds the bucket that the first one has filled
    have heq : P.callHash CI1 = P.callHash CI2 := by
      by_contra hne
      exact hagain ((resolved_fillBucket hne).2 h2)
    have hbucket : (P.fillBucket first m CI1).sigFuncsMap (P.callHash CI1) = _ :=
      fillBucket_self hres
    rw [oneLayerBy_of_not_resolved hagain, oneLayerBy_of_resolved h2, ← heq, hbucket] at hfree
    have hspeaks := speaks_iff.1 (h1 hres)
    rw [speaks_iff, ← hfree, ← heq]
    exact hspeaks

theorem matched_subset_iff : P.matched first m CI1 ⊆ P.matched first m CI2 ↔
    ∀ f, P.Accepts first m CI1 f → P.Accepts first m CI2 f := by
  simp only [Finset.subset_iff, mem_matched]

theorem matched_eq_iff : P.matched first m CI1 = P.matched first m CI2 ↔
    ∀ f, P.Accepts first m CI1 f ↔ P.Accepts first m CI2 f := by
  simp only [Finset.ext_iff, mem_matched]

theorem matched_eq_empty_iff :
    P.matched first m CI = ∅ ↔ ∀ f, ¬ P.Accepts first m CI f := by
  simp only [Finset.eq_empty_iff_forall_notMem, mem_matched]

/-- **Two calls.**  A call leaves the result of another one as it is, and the buckets keep
    only functions that pass the check, exactly if the types and buckets are uniform before.
    Which functions a call accepts, depends on their types only if buckets have one type. -/
theorem orderFree_iff (hcall1 : P.isIndirectCall CI1 = true) :
    (P.OrderFree first m CI1 CI2 ↔ P.Uniform first m CI1 CI2) ∧
    ((∀ k S, S.Nonempty → ∃ f ∈ S, first k S = some f) → P.OneType m → ∀ CI f,
      (P.Accepts first m CI f ↔
        P.passesCheck m CI f = true ∧ ∃ k ∈ P.sigKeys, f ∈ m.sigFuncsMap k)) := by
  refine ⟨?_, fun hfirst hone CI f => accepts_iff hfirst hone⟩
  have hresult : P.oneLayerBy first (P.afterOneLayerBy first m CI1) CI2 =
      P.oneLayerBy first m CI2 ↔ _ := oneLayerBy_afterOneLayerBy_iff hcall1
  simp only [← firstPasses_iff, matched_subset_iff, matched_eq_iff, matched_eq_empty_iff] at hresult
  unfold OrderFree
  rw [bucketsMatch_afterOneLayerBy, bucketsMatch_afterOneLayerBy]
  constructor
  · rintro ⟨hfree, ⟨hrecorded, h1⟩, h2⟩
    have h2' := (speaks_afterOneLayerBy_iff hfree h1).1 h2
    obtain ⟨hbetween, hsame⟩ := hresult.1 hfree
    exact ⟨hrecorded, h1, h2', hbetween, hsame⟩
  · rintro ⟨hrecorded, h1, h2, hbetween, hsame⟩
    have hfree := hresult.2 ⟨hbetween, hsame⟩
    exact ⟨hfree, ⟨hrecorded, h1⟩, (speaks_afterOneLayerBy_iff hfree h1).2 h2⟩

end

/-! ## Two variadic calls -/

/-- Integers, pointers, two types of functions and two variadic ones. -/
def typesOfVariadics : TypeTable where
  print t := match t with
    | 0 => "i32" | 1 => "i8*" | 2 => "i32(i32,i8*)" | 3 => "i32(i32,i32)"
    | 4 => "i32(i32,...)" | 5 => "i32(i32,i8*,...)" | _ => "void()"
  isStructTy _ := false
  isArrayTy _ := false
  isLiteral _ := false
  getStructName _ := ""
  isPointerTy t := t = 1
  getReturnType t := if t = 6 then 6 else 0
  getParamTypes t := match t with | 2 => [0, 1] | 3 => [0, 0] | 4 => [0] | 5 => [0, 1] | _ => []
  same_print _ _ _ := ⟨rfl, rfl, rfl⟩

/-- `note(int, char *)`, `log(int, int)` and a function with two indirect calls: `4` as
    `int (int, ...)`, `5` as `int (int, char *, ...)`. -/
def variadicCalls : CallProgram where
  toProgram :=
    { Program.ofTable
        [(.function, []), (.function, []), (.function, []), (.argument, []),
          (.instruction .call, [3]), (.instruction .call, [3])]
        (by decide) with
      getName := fun v => match v with | 0 => "note" | 1 => "log" | 2 => "run" | _ => ""
      getFunction := fun _ => 2
      args := fun F => if F = 2 then [3] else []
      insts := fun F => if F = 2 then [4, 5] else []
      isDeclaration := fun _ => false
      hasAddressTaken := fun F => F = 0 ∨ F = 1 }
  T := typesOfVariadics
  getType v := if v = 3 then 1 else 0
  getTypeID t := if t ≤ 1 then t else 2
  getFunctionType v := match v with | 0 => 2 | 1 => 3 | 4 => 4 | 5 => 5 | _ => 6

/-- The maps after the initialization. -/
abbrev variadicMaps : LayerMaps :=
  [({ globals := [], functions := [0, 1, 2] } : LLVMModule)].foldl
    variadicCalls.doInitialization {}

/-- Alone, the call `5` goes to `note`; after the call `4`, also to `log`. -/
theorem oneLayer_depends_on_order :
    ¬ ∀ (P : CallProgram) (Ms : List LLVMModule) (CI1 CI2 : Value),
      P.isIndirectCall CI1 = true → P.isIndirectCall CI2 = true →
      P.getFunctionType CI1 ≠ P.getFunctionType CI2 →
      P.getOneLayerResult (P.afterOneLayer (Ms.foldl P.doInitialization {}) CI1) CI2 =
          P.getOneLayerResult (Ms.foldl P.doInitialization {}) CI2 ∧
        P.BucketsMatch (P.afterOneLayer
          (P.afterOneLayer (Ms.foldl P.doInitialization {}) CI1) CI2) := by
  intro h
  have hfree := (h variadicCalls [{ globals := [], functions := [0, 1, 2] }] 4 5 rfl rfl
    (by decide)).1
  have halone : variadicCalls.getOneLayerResult variadicMaps 5 = {0} := by decide
  have hafter : variadicCalls.getOneLayerResult (variadicCalls.afterOneLayer variadicMaps 4) 5 =
      {0, 1} := by decide
  rw [halone, hafter] at hfree
  exact absurd hfree (by decide)

theorem isIndirectCall_variadicCalls {CI : Value} (h : variadicCalls.isIndirectCall CI = true) :
    CI = 4 ∨ CI = 5 := by
  rcases CI with _ | _ | _ | _ | _ | _ | CI
  · cases h
  · cases h
  · cases h
  · cases h
  · exact Or.inl rfl
  · exact Or.inr rfl
  · have hnone : variadicCalls.operands (CI + 6) = [] := rfl
    rw [isIndirectCall, Program.getCalledOperand, hnone] at h
    cases h

/-- In the other order, the first call does no harm to the second one. -/
theorem orderFree_variadicCalls :
    variadicCalls.OrderFree (fun _ S => (inOrder S).head?) variadicMaps 5 4 := by
  refine (orderFree_iff rfl).1.2 ⟨?_, ?_, ?_, ?_, ?_⟩
  · intro CI hCI
    rcases isIndirectCall_variadicCalls hCI with rfl | rfl
    · decide
    · decide
  · intro _
    refine speaks_iff.2 fun f hf CI hCI => ?_
    have hmatched : variadicCalls.matched (fun _ S => (inOrder S).head?) variadicMaps 5 = {0} := by
      decide
    rw [hmatched, Finset.mem_singleton] at hf
    subst hf
    rcases isIndirectCall_variadicCalls hCI with rfl | rfl
    · decide
    · decide
  · intro _
    refine speaks_iff.2 fun f hf CI hCI => ?_
    have hmatched : variadicCalls.matched (fun _ S => (inOrder S).head?) variadicMaps 4 =
        {0, 1} := by decide
    rw [hmatched, Finset.mem_insert, Finset.mem_singleton] at hf
    rcases hf with rfl | rfl <;> rcases isIndirectCall_variadicCalls hCI with rfl | rfl
    · decide
    · decide
    · decide
    · decide
  · intro _ _ _ _
    exact matched_subset_iff.1 (by decide)
  · intro _ hsame
    exact absurd hsame (by decide)

end CallProgram

end TFA
