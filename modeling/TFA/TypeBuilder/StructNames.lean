/-
  The names of struct types (`TypeBuilderTools.cc`, `CallGraphTools.cc`, and `doModulePass`
  in `TypeBuilder.cc`).

  The name of a struct type starts with a word for its kind, which debug information does
  not have.  Both passes take it off: they look for a word anywhere in the name, and then
  drop as many characters as the word has from the front.

  * `recordStructTypes`: the map of a module from the parsed names to the types;
  * `parseIdentifiedStructName_append`: what is left of a name with a kind;
  * `undoesKind_iff`: this is the name without its kind, exactly if the kind is that of a
    struct or its word is not found in the rest of the name.
-/
import TFA.CallGraph.LayerMaps

namespace TFA

/-- A string is found exactly if it is a part of the other. -/
theorem containsSub_iff {origstr targetsubstr : String} :
    containsSub origstr targetsubstr ↔ targetsubstr.toList <:+: origstr.toList := by
  simp only [containsSub, List.any_eq_true, List.mem_tails, List.isPrefixOf_iff_prefix]
  constructor
  · rintro ⟨t, hsuf, hpre⟩
    exact hpre.isInfix.trans hsuf.isInfix
  · rintro ⟨s, t, h⟩
    refine ⟨targetsubstr.toList ++ t, ⟨s, ?_⟩, List.prefix_append _ _⟩
    rw [← h, List.append_assoc]

/-! ## Kinds -/

/-- The kinds of struct types with a name. -/
inductive StructKind where
  | struct
  | union
  | class_
deriving DecidableEq

/-- The word that a name starts with. -/
def StructKind.word : StructKind → String
  | struct => "struct."
  | union => "union."
  | class_ => "class."

/-- A name with a kind contains the word of this kind. -/
theorem StructKind.containsSub_word (K : StructKind) (b : String) :
    containsSub (K.word ++ b) K.word := by
  rw [containsSub_iff, String.toList_append]
  exact List.infix_append_left

/-- No word begins in the one of another kind and ends behind it. -/
theorem StructKind.containsSub_struct (K : StructKind) (b : String) :
    containsSub (K.word ++ b) "struct." = (K = .struct || containsSub b "struct.") := by
  rw [Bool.eq_iff_iff, containsSub_iff, Bool.or_eq_true, containsSub_iff]
  cases K <;> simp [StructKind.word, List.infix_cons_iff]

/-- What `parseIdentifiedStructName` leaves of a name with a kind. -/
theorem parseIdentifiedStructName_append (K : StructKind) (b : String) :
    parseIdentifiedStructName (K.word ++ b) =
      if K ≠ .struct ∧ containsSub b "struct." then String.ofList (b.toList.drop 1) else b := by
  have hword := K.containsSub_word b
  unfold parseIdentifiedStructName
  rw [K.containsSub_struct]
  cases K with
  | struct => simp [StructKind.word]
  | union => by_cases hb : containsSub b "struct." <;> simp_all [StructKind.word]
  | class_ => by_cases hb : containsSub b "struct." <;> simp_all [StructKind.word]

namespace TypeBuilder

/-- `parseIdentifiedStructName`, in this pass. -/
def parseIdentifiedStructName (str_name : String) : String :=
  if str_name = "" then ""
  else if containsSub str_name "struct." then String.ofList (str_name.toList.drop 7)
  else if containsSub str_name "union." then String.ofList (str_name.toList.drop 6)
  else if containsSub str_name "class." then String.ofList (str_name.toList.drop 6)
  else ""

theorem parseIdentifiedStructName_eq (str_name : String) :
    parseIdentifiedStructName str_name = TFA.parseIdentifiedStructName str_name := by
  unfold parseIdentifiedStructName
  split
  case isTrue h =>
    subst h
    decide
  · rfl

/-- The loop of `doModulePass` over the struct types of a module, which fills
    `identifiedStructType`. -/
def recordStructTypes (T : TypeTable) (identifiedStructType : String → Option Ty)
    (identifiedStructTys : List Ty) : String → Option Ty :=
  identifiedStructTys.foldl (fun m STy =>
    if T.getStructName STy = "" then m
    else Function.update m (parseIdentifiedStructName (T.getStructName STy)) (some STy))
    identifiedStructType

variable {T : TypeTable} {m : String → Option Ty} {l : List Ty} {STy : Ty} {name : String}

/-- A type of the module is found under every name that one of its types is parsed to. -/
theorem exists_recordStructTypes (hl : STy ∈ l) (hne : T.getStructName STy ≠ "")
    (hname : parseIdentifiedStructName (T.getStructName STy) = name) :
    ∃ STy' ∈ l, recordStructTypes T m l name = some STy' ∧
      parseIdentifiedStructName (T.getStructName STy') = name := by
  unfold recordStructTypes
  induction l using List.reverseRecOn with
  | nil => cases hl
  | append_singleton l t ih =>
    rw [List.foldl_append, List.foldl_cons, List.foldl_nil]
    -- the last type that is parsed to the name has its entry
    by_cases ht : T.getStructName t ≠ "" ∧ parseIdentifiedStructName (T.getStructName t) = name
    · exact ⟨t, by simp, by simp [ht.1, ht.2], ht.2⟩
    · have hmem : STy ∈ l := by
        rcases List.mem_append.1 hl with h | h
        · exact h
        · rw [List.mem_singleton.1 h] at hne hname
          exact absurd ⟨hne, hname⟩ ht
      obtain ⟨STy', hSTy', hfound, hparsed⟩ := ih hmem
      refine ⟨STy', List.mem_append_left _ hSTy', ?_, hparsed⟩
      rw [← hfound]
      split
      · rfl
      · rename_i hnamed
        exact Function.update_of_ne (fun h => ht ⟨hnamed, h.symm⟩) _ _

/-! ## Names with and without a kind -/

/-- Both passes give back the name without its kind, and a type with the name is found
    under it. -/
structure UndoesKind (K : StructKind) (b : String) : Prop where
  callGraph : TFA.parseIdentifiedStructName (K.word ++ b) = b
  typeBuilder : parseIdentifiedStructName (K.word ++ b) = b
  found : ∀ (T : TypeTable) (m : String → Option Ty) (l : List Ty), ∀ STy ∈ l,
    T.getStructName STy = K.word ++ b → ∃ STy' ∈ l, recordStructTypes T m l b = some STy' ∧
      parseIdentifiedStructName (T.getStructName STy') = b

/-- **Names of struct types.**  The kind of a struct is taken off every name; another kind is
    taken off exactly if the rest of the name does not contain the word for a struct. -/
theorem undoesKind_iff (K : StructKind) (b : String) :
    UndoesKind K b ↔ K = .struct ∨ containsSub b "struct." = false := by
  constructor
  · intro h
    by_contra hnot
    rw [not_or, Bool.not_eq_false] at hnot
    have hdrop := h.callGraph
    rw [parseIdentifiedStructName_append, if_pos hnot] at hdrop
    -- a character of the name is lost, and it has one
    have hlen : b.toList.length - 1 = b.toList.length := by
      conv_rhs => rw [← hdrop]
      rw [String.toList_ofList, List.length_drop]
    have hpos : 0 < b.toList.length := by
      have hin := containsSub_iff.1 hnot.2
      exact Nat.lt_of_lt_of_le (by decide) hin.length_le
    omega
  · intro h
    have hcall : TFA.parseIdentifiedStructName (K.word ++ b) = b := by
      rw [parseIdentifiedStructName_append, if_neg]
      rintro ⟨hK, hb⟩
      rcases h with h | h
      · exact hK h
      · simp [h] at hb
    have hbuild : parseIdentifiedStructName (K.word ++ b) = b := by
      rw [parseIdentifiedStructName_eq, hcall]
    refine ⟨hcall, hbuild, fun T m l STy hl hSTy => ?_⟩
    have hne : T.getStructName STy ≠ "" := by
      rw [hSTy]
      cases K <;> simp [StructKind.word]
    exact exists_recordStructTypes hl hne (by rw [hSTy, hbuild])

/-- The union `my_struct.0` is taken for `y_struct.0`. -/
theorem kind_not_undone : ¬ ∀ (K : StructKind) (b : String), b ≠ "" → UndoesKind K b := by
  intro h
  have hcall := (h .union "my_struct.0" (by decide)).callGraph
  exact absurd hcall (by decide)

end TypeBuilder

end TFA
