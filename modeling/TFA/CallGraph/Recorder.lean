/-
  The keys of the recorder and of the lookup (`updateStructInfo` in `CallGraphTools.cc`,
  `findCalleesWithTwoLayerTA` in `TypeAnalysis.cc`).

  A function that is stored to a field is recorded under the printed type, and under the
  name of the struct or its own function type; a query computes these keys anew from the
  type that it is asked for.

  * `SameStruct`: two structs of one kind with one resolved name;
  * `found_of_recordFunc`: a query of a type that prints the same, or is such a struct,
    finds the function or reports an escape.
-/
import TFA.CallGraph.Escape

namespace TFA

open LayerMaps

namespace CallProgram

section
variable (P : CallProgram)

/-- Both are identified structs or both are literal ones, and their names resolve to the
    same string. -/
def SameStruct (m : LayerMaps) (t t' : Ty) : Prop :=
  (P.T.isStructTy t = true ∧ P.T.isStructTy t' = true) ∧
    P.T.isLiteral t = P.T.isLiteral t' ∧ m.layerName P.T t = m.layerName P.T t'

instance (m : LayerMaps) (t t' : Ty) : Decidable (P.SameStruct m t t') :=
  inferInstanceAs (Decidable (_ ∧ _))

/-- The types that a field of type `t` may be asked for with. -/
def SameKeys (m : LayerMaps) (t t' : Ty) : Prop :=
  P.T.print t' = P.T.print t ∨ P.SameStruct m t' t

/-- The query of a field at a call, with the full one-layer set. -/
def queryAt (m : LayerMaps) (CI : Value) (CT : CompositeType) (LayerNo : ℕ) : TwoLayerResult :=
  (P.afterOneLayer m CI).findCalleesWithTwoLayerTA P.T P.getName P.order (P.callHash CI)
    (P.getOneLayerResult m CI) CT.1 CT.2 LayerNo

end

section
variable {P : CallProgram} {m m' : LayerMaps} {f : Func} {CI : Value} {t t' : Ty} {i : ℤ}

theorem layerHash_of_sameKeys (h : P.SameKeys m t t') (i : ℤ) :
    m.layerHash P.T (t, i) = m.layerHash P.T (t', i) := by
  rcases h with hprint | ⟨-, -, hname⟩
  · exact (layerHash_print hprint).symm
  · show typeNameIdxHash _ _ = typeNameIdxHash _ _
    rw [hname]

/-- A bucket that has a function is taken as it is. -/
theorem afterOneLayer_of_mem (h : f ∈ m.sigFuncsMap (P.callHash CI)) :
    P.afterOneLayer m CI = m := by
  have hne : m.sigFuncsMap (P.callHash CI) ≠ ∅ := Finset.ne_empty_of_mem h
  rw [afterOneLayer, if_neg hne]

/-- A function has an entry for its own type when it is recorded for a field. -/
theorem mem_sigFuncsMap_recordFunc (CT : CompositeType) (m : LayerMaps) (f : Func) :
    f ∈ (P.recordFunc CT m f).sigFuncsMap (P.funcHash f) := by
  refine (TypedProgram.grows_updateStructInfo f CT).sig _ ?_
  simp [recordSig]

/-- **The keys agree.**  A named function that was recorded for a field is found by a query
    of the field at a call of its type, or an escape is reported: for every type with the
    same keys, and whatever has been recorded in between. -/
theorem found_of_recordFunc (hname : P.getName f ≠ "")
    (hlater : Records (P.recordFunc (t, i) m f) m') (hkeys : P.SameKeys m t t')
    (hcall : P.callHash CI = P.funcHash f) (LayerNo : ℕ) :
    (P.queryAt m' CI (t', i) LayerNo).escape.isSome ∨
      f ∈ (P.queryAt m' CI (t', i) LayerNo).FS := by
  have hsig : f ∈ m'.sigFuncsMap (P.callHash CI) := by
    rw [hcall]
    exact hlater.sig _ (mem_sigFuncsMap_recordFunc (t, i) m f)
  have hrecorded : P.Recorded f (t', i) (P.recordFunc (t, i) m f) :=
    recorded_recordFunc (layerHash_of_sameKeys hkeys i) (Or.inl hname)
  have hpre : m'.sigFuncsMap (P.funcHash f) ⊆ P.getOneLayerResult m' CI := by
    intro g hg
    rwa [getOneLayerResult, afterOneLayer_of_mem hsig, hcall]
  rw [queryAt, afterOneLayer_of_mem hsig, hcall]
  exact (recorded_mono hrecorded hlater).query hpre LayerNo

end

/-- A function recorded for the field of a struct, and the same name in another module. -/
theorem found_of_recordFunc_twoInits :
    ((twoInits false).queryAt ((twoInits false).recordFunc (1, 0) {} 0) 3 (2, 0) 0).escape.isSome ∨
      0 ∈ ((twoInits false).queryAt ((twoInits false).recordFunc (1, 0) {} 0) 3 (2, 0) 0).FS := by
  have hkeys : (twoInits false).SameKeys {} 1 2 := Or.inl rfl
  exact found_of_recordFunc (by decide) (.refl _) hkeys rfl 0

end CallProgram

end TFA
