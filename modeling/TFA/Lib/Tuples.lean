/-
  Tuples of values as text, and how they are read back.

  A value is a number or a text between quotes, a tuple has its values between brackets, and
  a command has a prefix and tuples with commas between them.

  * `write` is the text of a tuple, and `read` takes the tuples of a command from its
    characters, one after the other (`step`);
  * `Plain`: a text has no quote and no backslash.  The texts are written as they are, so that
    one with a quote would end there;
  * `read_tuples`: tuples with plain texts are read back;
  * `readCommands_of_batched`: also from commands that have them in batches.
-/
import Mathlib.Data.List.Induction
import TFA.Lib.Batches

namespace TFA.Tuples

open Batches

/-- A value. -/
inductive Datum
  | num (n : ℕ)
  | text (s : String)
deriving DecidableEq, Repr

def Datum.write : Datum → String
  | num n => toString n
  | text s => "\"" ++ s ++ "\""

/-- The text of a tuple. -/
def write (t : List Datum) : String := "(" ++ ",".intercalate (t.map Datum.write) ++ ")"

/-! ## Reading -/

/-- What has been read of the present tuple. -/
inductive Mode
  /-- a tuple begins -/
  | fresh
  /-- a value begins, after some others -/
  | value (t : List Datum)
  | num (t : List Datum) (digits : List Char)
  | text (t : List Datum) (chars : List Char)
  /-- after the second quote of a text -/
  | quoted (t : List Datum)
  | closed
  | done
deriving DecidableEq

/-- The tuples that have been read. -/
structure Reader where
  tuples : List (List Datum)
  mode : Mode
deriving DecidableEq

/-- The character after a value. -/
def close (ts : List (List Datum)) (t : List Datum) (c : Char) : Option Reader :=
  if c = ',' then some ⟨ts, .value t⟩
  else if c = ')' then some ⟨ts ++ [t], .closed⟩
  else none

/-- Read a character. -/
def step (r : Reader) (c : Char) : Option Reader :=
  match r.mode with
  | .fresh => if c = '(' then some ⟨r.tuples, .value []⟩ else none
  | .value t =>
    if c = '"' then some ⟨r.tuples, .text t []⟩
    else if c.isDigit then some ⟨r.tuples, .num t [c]⟩
    else none
  | .num t digits =>
    if c.isDigit then some ⟨r.tuples, .num t (digits ++ [c])⟩
    else close r.tuples (t ++ [.num (Nat.ofDigitChars 10 digits 0)]) c
  | .text t chars =>
    if c = '"' then some ⟨r.tuples, .quoted (t ++ [.text (String.ofList chars)])⟩
    else if c = '\\' then none
    else some ⟨r.tuples, .text t (chars ++ [c])⟩
  | .quoted t => close r.tuples t c
  | .closed =>
    if c = ',' then some ⟨r.tuples, .fresh⟩
    else if c = ';' then some ⟨r.tuples, .done⟩
    else none
  | .done => none

/-- The tuples up to a semicolon at the end. -/
def read (cs : List Char) : Option (List (List Datum)) := do
  let r ← cs.foldlM step ⟨[], .fresh⟩
  if r.mode = .done then some r.tuples else none

/-- The tuples of a command. -/
def readCommand (pfx cmd : String) : Option (List (List Datum)) :=
  if pfx.toList <+: cmd.toList then read (cmd.toList.drop pfx.toList.length) else none

/-- The tuples of all commands. -/
def readCommands (pfx : String) (cmds : List String) : Option (List (List Datum)) :=
  (cmds.mapM (readCommand pfx)).map List.flatten

/-- A text that ends at its second quote. -/
def Datum.Plain : Datum → Prop
  | num _ => True
  | text s => ∀ c ∈ s.toList, c ≠ '"' ∧ c ≠ '\\'

/-- A tuple that can be read back. -/
def Plain (t : List Datum) : Prop := t ≠ [] ∧ ∀ d ∈ t, d.Plain

section
variable {pfx : String} {n : ℕ} {ts rows : List (List Datum)} {t : List Datum} {d : Datum}
  {r r' : Reader} {cs cs' digits : List Char}

theorem foldlM_cons_of_step {c : Char} (h : step r c = some r') :
    (c :: cs).foldlM step r = cs.foldlM step r' := by
  simp [List.foldlM_cons, h]

/-! ## A value -/

theorem foldlM_digits (hdigits : ∀ c ∈ cs, c.isDigit = true) :
    (cs ++ cs').foldlM step ⟨ts, .num t digits⟩ =
      cs'.foldlM step ⟨ts, .num t (digits ++ cs)⟩ := by
  induction cs generalizing digits with
  | nil => simp
  | cons c cs ih =>
    have hc : step ⟨ts, .num t digits⟩ c = some ⟨ts, .num t (digits ++ [c])⟩ := by
      simp [step, hdigits c (by simp)]
    rw [List.cons_append, foldlM_cons_of_step hc, ih fun c hc => hdigits c (by simp [hc])]
    simp

theorem foldlM_chars {chars : List Char} (hplain : ∀ c ∈ cs, c ≠ '"' ∧ c ≠ '\\') :
    (cs ++ cs').foldlM step ⟨ts, .text t chars⟩ =
      cs'.foldlM step ⟨ts, .text t (chars ++ cs)⟩ := by
  induction cs generalizing chars with
  | nil => simp
  | cons c cs ih =>
    obtain ⟨hquote, hbackslash⟩ := hplain c (by simp)
    have hc : step ⟨ts, .text t chars⟩ c = some ⟨ts, .text t (chars ++ [c])⟩ := by
      simp [step, hquote, hbackslash]
    rw [List.cons_append, foldlM_cons_of_step hc, ih fun c hc => hplain c (by simp [hc])]
    simp

/-- A plain value and the character after it. -/
theorem foldlM_datum {c : Char} (hd : d.Plain) (hc : c = ',' ∨ c = ')') :
    (d.write.toList ++ c :: cs).foldlM step ⟨ts, .value t⟩ =
      (close ts (t ++ [d]) c).bind (cs.foldlM step) := by
  cases d with
  | num n =>
    have hwrite : (Datum.num n).write.toList = Nat.toDigits 10 n := Nat.toList_repr
    have hdigits : ∀ c ∈ Nat.toDigits 10 n, c.isDigit = true := by
      intro c hc
      exact Nat.isDigit_of_mem_toDigits (by omega) (by omega) hc
    have hval : Nat.ofDigitChars 10 (Nat.toDigits 10 n) 0 = n := by simp
    have hend : c.isDigit = false := by rcases hc with rfl | rfl <;> rfl
    obtain ⟨c₀, cs₀, hcons⟩   :=
      List.exists_cons_of_ne_nil (show Nat.toDigits 10 n ≠ [] from Nat.toDigits_ne_nil)
    rw [hcons] at hdigits hval
    have hfirst : c₀.isDigit = true := hdigits c₀ (by simp)
    have hquote : c₀ ≠ '"' := by
      rintro rfl
      exact absurd hfirst (by decide)
    have hstart : step ⟨ts, .value t⟩ c₀ = some ⟨ts, .num t [c₀]⟩ := by
      simp [step, hquote, hfirst]
    have hstop : step ⟨ts, .num t (c₀ :: cs₀)⟩ c = close ts (t ++ [.num n]) c := by
      simp [step, hend, hval]
    rw [hwrite, hcons, List.cons_append, foldlM_cons_of_step hstart,
      foldlM_digits fun c hc => hdigits c (by simp [hc]), List.singleton_append,
      List.foldlM_cons, hstop]
    rfl
  | text s =>
    have hwrite : (Datum.text s).write.toList ++ c :: cs =
        '"' :: (s.toList ++ '"' :: c :: cs) := by
      simp [Datum.write]
    have hstop : step ⟨ts, .text t s.toList⟩ '"' = some ⟨ts, .quoted (t ++ [.text s])⟩ := by
      simp [step]
    have hstart : step ⟨ts, .value t⟩ '"' = some ⟨ts, .text t []⟩ := rfl
    rw [hwrite, foldlM_cons_of_step hstart, foldlM_chars hd, List.nil_append,
      foldlM_cons_of_step hstop, List.foldlM_cons]
    rfl

/-! ## A command -/

/-- The values of a tuple, and its bracket. -/
theorem foldlM_data {ds : List Datum} (hne : ds ≠ []) (hplain : ∀ d ∈ ds, d.Plain) :
    ((",".intercalate (ds.map Datum.write)).toList ++ ')' :: cs).foldlM step ⟨ts, .value t⟩ =
      cs.foldlM step ⟨ts ++ [t ++ ds], .closed⟩ := by
  induction ds generalizing t with
  | nil => exact absurd rfl hne
  | cons d ds ih =>
    have hd := hplain d (by simp)
    by_cases hds : ds = []
    · subst hds
      simp only [List.map_cons, List.map_nil, String.intercalate_singleton]
      rw [foldlM_datum hd (Or.inr rfl)]
      rfl
    · rw [List.map_cons, String.intercalate_cons_of_ne_nil (by simpa using hds)]
      have hcomma : (d.write ++ "," ++ ",".intercalate (ds.map Datum.write)).toList ++ ')' :: cs =
          d.write.toList ++ ',' ::
            ((",".intercalate (ds.map Datum.write)).toList ++ ')' :: cs) := by
        simp
      rw [hcomma, foldlM_datum hd (Or.inl rfl)]
      have hrest := @ih (t ++ [d]) hds fun d' hd' => hplain d' (by simp [hd'])
      rw [List.append_assoc, List.singleton_append] at hrest
      exact hrest

/-- A tuple. -/
theorem foldlM_write (ht : Plain t) :
    ((write t).toList ++ cs).foldlM step ⟨ts, .fresh⟩ =
      cs.foldlM step ⟨ts ++ [t], .closed⟩ := by
  have hopen : (write t).toList ++ cs =
      '(' :: ((",".intercalate (t.map Datum.write)).toList ++ ')' :: cs) := by
    simp [write]
  have hstart : step ⟨ts, .fresh⟩ '(' = some ⟨ts, .value []⟩ := rfl
  rw [hopen, foldlM_cons_of_step hstart, foldlM_data ht.1 ht.2, List.nil_append]

/-- The tuples of a command. -/
theorem foldlM_tuples (hne : rows ≠ []) (hplain : ∀ t ∈ rows, Plain t) :
    ((",".intercalate (rows.map write)).toList ++ [';']).foldlM step ⟨ts, .fresh⟩ =
      some ⟨ts ++ rows, .done⟩ := by
  induction rows generalizing ts with
  | nil => exact absurd rfl hne
  | cons t rows ih =>
    have ht := hplain t (by simp)
    by_cases hrows : rows = []
    · subst hrows
      simp only [List.map_cons, List.map_nil, String.intercalate_singleton]
      rw [foldlM_write ht]
      rfl
    · rw [List.map_cons, String.intercalate_cons_of_ne_nil (by simpa using hrows)]
      have hcomma : (write t ++ "," ++ ",".intercalate (rows.map write)).toList ++ [';'] =
          (write t).toList ++ ',' :: ((",".intercalate (rows.map write)).toList ++ [';']) := by
        simp
      have hnext : step ⟨ts ++ [t], .closed⟩ ',' = some ⟨ts ++ [t], .fresh⟩ := rfl
      rw [hcomma, foldlM_write ht, foldlM_cons_of_step hnext,
        ih hrows fun t' ht' => hplain t' (by simp [ht'])]
      simp

/-- **Tuples are read back.** -/
theorem read_tuples (hne : rows ≠ []) (hplain : ∀ t ∈ rows, Plain t) :
    read ((",".intercalate (rows.map write)).toList ++ [';']) = some rows := by
  unfold read
  rw [foldlM_tuples hne hplain]
  rfl

theorem readCommand_command (hne : rows ≠ []) (hplain : ∀ t ∈ rows, Plain t) :
    readCommand pfx (command pfx (rows.map write)) = some rows := by
  have hcmd : (command pfx (rows.map write)).toList =
      pfx.toList ++ ((",".intercalate (rows.map write)).toList ++ [';']) := by
    simp [command]
  unfold readCommand
  rw [hcmd, if_pos (List.prefix_append _ _), List.drop_left, read_tuples hne hplain]

/-- **Batches are read back.** -/
theorem readCommands_of_batched {cmds : List String}
    (h : Batched pfx n (rows.map write) cmds) (hplain : ∀ t ∈ rows, Plain t) :
    readCommands pfx cmds = some rows := by
  obtain ⟨batches, rfl, hflat, hsizes⟩ := h
  have hread : (batches.map (command pfx)).mapM (readCommand pfx) >>=
      (fun tss => some tss.flatten) = some rows := by
    induction batches generalizing rows with
    | nil =>
      have hrows : rows = [] := by simpa using hflat.symm
      subst hrows
      rfl
    | cons batch batches ih =>
      -- the batch is what the first rows are written as
      rw [List.flatten_cons] at hflat
      obtain ⟨firsts, rest, rfl, rfl, hrest⟩ := List.map_eq_append_iff.1 hflat.symm
      have hne : firsts ≠ [] := by
        rintro rfl
        have hsize := (hsizes [] (by simp)).1
        simp at hsize
      have hbatch : readCommand pfx (command pfx (firsts.map write)) = some firsts :=
        readCommand_command hne fun t ht => hplain t (by simp [ht])
      have hothers := ih (fun t ht => hplain t (by simp [ht])) hrest.symm
        fun b hb => hsizes b (by simp [hb])
      obtain ⟨tss, htss, htss'⟩ := Option.bind_eq_some_iff.1 hothers
      have hrest' : tss.flatten = rest := by simpa using htss'
      simp [List.mapM_cons, hbatch, htss, hrest']
  simpa [readCommands, Option.map_eq_bind] using hread

end

end TFA.Tuples
