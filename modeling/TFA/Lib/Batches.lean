/-
  Rows that are written in batches.

  A buffer holds a prefix and rows with a comma after each.  It becomes a command when it
  has enough rows, or at a row that is taken for the last one, after which it stays empty.

  * `addRow` writes a row, `commands` gives the commands for a list of rows;
  * `Batched`: every command is the prefix with some of the rows, not too many, separated
    by commas, and the rows of all commands are those of the list;
  * `batched_iff`: this holds exactly if no other row is taken for the last one, and the last
    row ends a batch where it is not taken for it.
-/
import Mathlib.Data.Nat.Count
import Mathlib.Algebra.BigOperators.Ring.List
import Mathlib.Tactic.Ring

namespace TFA.Batches

/-- The buffer, with the number of rows in it and that of the next row, and the commands. -/
structure Buffer where
  batchnum : ℕ
  rowid : ℕ
  text : String
  cmds : List String

variable (pfx : String) (batch_size : ℕ) (isLast : ℕ → Bool)

/-- Before the first row. -/
def start : Buffer := ⟨0, 1, pfx, []⟩

/-- Write a row. -/
def addRow (s : Buffer) (row : String) : Buffer :=
  if batch_size ≤ s.batchnum + 1 ∨ isLast s.rowid then
    { batchnum := 0
      rowid := s.rowid + 1
      text := if isLast s.rowid then "" else pfx
      cmds := s.cmds ++ [s.text ++ row ++ ";"] }
  else
    { s with batchnum := s.batchnum + 1, rowid := s.rowid + 1, text := s.text ++ row ++ "," }

/-- The commands for a list of rows. -/
def commands (rows : List String) : List String :=
  (rows.foldl (addRow pfx batch_size isLast) (start pfx)).cmds

/-- The command for a batch. -/
def command (batch : List String) : String := pfx ++ ",".intercalate batch ++ ";"

/-- The commands are those of batches, which are not empty or too large and have all rows. -/
def Batched (rows cmds : List String) : Prop :=
  ∃ batches : List (List String), cmds = batches.map (command pfx) ∧ batches.flatten = rows ∧
    ∀ batch ∈ batches, 1 ≤ batch.length ∧ batch.length ≤ batch_size

/-- Rows in the buffer. -/
def pending (rows : List String) : String := String.join (rows.map (· ++ ","))

/-- The number of characters. -/
def size (texts : List String) : ℕ := (texts.map String.length).sum

section
variable {pfx batch_size isLast} {rows batch : List String} {row : String} {s : Buffer}

@[simp] theorem size_nil : size [] = 0 := rfl

@[simp] theorem size_cons : size (row :: rows) = row.length + size rows := by simp [size]

@[simp] theorem size_append : size (rows ++ batch) = size rows + size batch := by simp [size]

@[simp] theorem length_comma : ",".length = 1 := rfl

@[simp] theorem length_semicolon : ";".length = 1 := rfl

theorem pending_append_row :
    pending batch ++ row = ",".intercalate (batch ++ [row]) := by
  induction batch with
  | nil => simp [pending]
  | cons r batch ih =>
    rw [List.cons_append, String.intercalate_cons_of_ne_nil (by simp), ← ih]
    simp [pending, String.append_assoc]

/-- A row ends a command. -/
theorem command_append_row :
    command pfx (batch ++ [row]) = pfx ++ pending batch ++ row ++ ";" := by
  rw [command, ← pending_append_row]
  simp [String.append_assoc]

theorem pending_eq_nil (h : (pending batch).length = 0) : batch = [] := by
  cases batch with
  | nil => rfl
  | cons r batch => simp [pending] at h

/-! ## Without a row that is taken for the last one -/

/-- The rows so far are in full batches and in the buffer. -/
def Open (pfx : String) (batch_size : ℕ) (rows : List String) (s : Buffer) : Prop :=
  ∃ (batches : List (List String)) (batch : List String), s.cmds = batches.map (command pfx) ∧
    s.text = pfx ++ pending batch ∧ s.batchnum = batch.length ∧ s.rowid = rows.length + 1 ∧
    batches.flatten ++ batch = rows ∧ batch.length < batch_size ∧
    ∀ batch ∈ batches, batch.length = batch_size

theorem Open.start (hbatch : 1 ≤ batch_size) : Open pfx batch_size [] (start pfx) :=
  ⟨[], [], rfl, by simp [Batches.start, pending], rfl, rfl, rfl, by simp; omega, by simp⟩

theorem Open.addRow (h : Open pfx batch_size rows s) (hlast : isLast (rows.length + 1) = false) :
    Open pfx batch_size (rows ++ [row]) (addRow pfx batch_size isLast s row) := by
  obtain ⟨batches, batch, hcmds, htext, hnum, hid, hflat, hlt, hfull⟩ := h
  rw [← hid] at hlast
  unfold Batches.addRow
  simp only [hlast, Bool.false_eq_true, or_false, if_false]
  split
  case isTrue hle =>
    refine ⟨batches ++ [batch ++ [row]], [], ?_, ?_, rfl, ?_, ?_, ?_, ?_⟩
    · simp [hcmds, htext, command_append_row]
    · simp [pending]
    · simp [hid]
    · simp [← hflat]
    · simp
      omega
    · intro b hb
      rcases List.mem_append.1 hb with hb | hb
      · exact hfull b hb
      · obtain rfl := List.mem_singleton.1 hb
        rw [List.length_append, List.length_singleton]
        omega
  case isFalse hgt =>
    refine ⟨batches, batch ++ [row], hcmds, ?_, ?_, ?_, ?_, ?_, hfull⟩
    · simp [htext, pending, String.append_assoc]
    · simp [hnum]
    · simp [hid]
    · simp [← hflat]
    · rw [List.length_append, List.length_singleton]
      omega

theorem Open.foldl (hbatch : 1 ≤ batch_size)
    (hlast : ∀ j, 0 < j → j ≤ rows.length → isLast j = false) :
    Open pfx batch_size rows (rows.foldl (Batches.addRow pfx batch_size isLast)
      (Batches.start pfx)) := by
  induction rows using List.reverseRecOn with
  | nil => exact Open.start hbatch
  | append_singleton rows row ih =>
    rw [List.foldl_concat]
    have hrows := ih fun j hj hle => hlast j hj (by simp; omega)
    exact hrows.addRow (hlast _ (by omega) (by simp))

theorem dvd_length_flatten {batches : List (List String)}
    (hfull : ∀ batch ∈ batches, batch.length = batch_size) :
    batch_size ∣ batches.flatten.length := by
  rw [List.length_flatten]
  refine List.dvd_sum fun n hn => ?_
  obtain ⟨batch, hmem, rfl⟩ := List.mem_map.1 hn
  rw [hfull batch hmem]

/-- The batches are all full. -/
theorem Open.batched (h : Open pfx batch_size rows s) (hbatch : 1 ≤ batch_size)
    (hdvd : batch_size ∣ rows.length) : Batched pfx batch_size rows s.cmds := by
  obtain ⟨batches, batch, hcmds, -, -, -, rfl, hlt, hfull⟩ := h
  have hnil : batch = [] := by
    rw [List.length_append] at hdvd
    have hdvd' := (Nat.dvd_add_right (dvd_length_flatten hfull)).1 hdvd
    exact List.eq_nil_of_length_eq_zero (Nat.eq_zero_of_dvd_of_lt hdvd' hlt)
  refine ⟨batches, hcmds, by simp [hnil], fun b hb => ?_⟩
  have := hfull b hb
  omega

/-- The last row ends a batch. -/
theorem Open.batched_last (h : Open pfx batch_size rows s)
    (hlast : isLast (rows.length + 1) = true) : Batched pfx batch_size (rows ++ [row])
      (Batches.addRow pfx batch_size isLast s row).cmds := by
  obtain ⟨batches, batch, hcmds, htext, hnum, hid, rfl, hlt, hfull⟩ := h
  rw [← hid] at hlast
  refine ⟨batches ++ [batch ++ [row]], ?_, by simp, fun b hb => ?_⟩
  · simp [Batches.addRow, hlast, hcmds, htext, command_append_row]
  · rcases List.mem_append.1 hb with hb | hb
    · have := hfull b hb
      omega
    · obtain rfl := List.mem_singleton.1 hb
      rw [List.length_append, List.length_singleton]
      omega

/-! ## Counting characters -/

/-- The rows that are taken for the last one, among the first ones. -/
def lasts (isLast : ℕ → Bool) (n : ℕ) : ℕ := Nat.count (fun j => isLast (j + 1) = true) n

theorem lasts_succ (isLast : ℕ → Bool) (n : ℕ) : lasts isLast (n + 1) =
    lasts isLast n + if isLast (n + 1) = true then 1 else 0 :=
  Nat.count_succ _ n

theorem not_last_of_lasts_eq_zero {n : ℕ} (h : lasts isLast n = 0) {j : ℕ} (hj : 0 < j)
    (hle : j ≤ n) : isLast j = false := by
  by_contra hlast
  obtain ⟨j, rfl⟩ : ∃ j', j = j' + 1 := ⟨j - 1, by omega⟩
  have hlt := Nat.count_strict_mono (p := fun j => isLast (j + 1) = true) (m := j) (n := n)
    (by simpa using hlast) (by omega)
  unfold lasts at h
  omega

/-- What was written, and where the buffer is empty. -/
structure Written (pfx : String) (isLast : ℕ → Bool) (rows : List String) (s : Buffer) : Prop where
  rowid : s.rowid = rows.length + 1
  chars : size s.cmds + s.text.length + lasts isLast rows.length * pfx.length =
    (s.cmds.length + 1) * pfx.length + size rows + rows.length
  empty : s.text.length = 0 → isLast rows.length = true ∧ rows ≠ []

theorem Written.start (hpfx : pfx.length ≠ 0) : Written pfx isLast [] (start pfx) where
  rowid := rfl
  chars := by simp [Batches.start, lasts]
  empty h := absurd h hpfx

theorem Written.addRow (h : Written pfx isLast rows s) (hpfx : pfx.length ≠ 0) :
    Written pfx isLast (rows ++ [row]) (addRow pfx batch_size isLast s row) := by
  have hchars := h.chars
  have hlen : (rows ++ [row]).length = rows.length + 1 := by simp
  have hcount : lasts isLast (rows.length + 1) =
      lasts isLast rows.length + if isLast s.rowid = true then 1 else 0 := by
    rw [lasts_succ, h.rowid]
  unfold Batches.addRow
  split
  case isTrue hflush =>
    cases hlast : isLast s.rowid with
    | true =>
      refine ⟨by simp [h.rowid], ?_, fun _ => ⟨by rw [hlen, ← h.rowid, hlast], by simp⟩⟩
      rw [hlen, hcount, hlast]
      simp only [if_true, size_append, size_cons, size_nil, String.length_append,
        List.length_append, List.length_singleton, add_mul, one_mul]
      simp only [add_mul, one_mul] at hchars
      have h0 : "".length = 0 := rfl
      rw [length_semicolon]
      omega
    | false =>
      refine ⟨by simp [h.rowid], ?_, fun h0 => absurd (by simpa using h0) hpfx⟩
      rw [hlen, hcount, hlast]
      simp only [Bool.false_eq_true, if_false, size_append, size_cons, size_nil,
        String.length_append, List.length_append, List.length_singleton, add_mul, one_mul]
      simp only [add_mul, one_mul] at hchars
      rw [length_semicolon]
      omega
  case isFalse hflush =>
    have hlast : isLast s.rowid = false := by
      simpa using (not_or.1 hflush).2
    refine ⟨by simp [h.rowid], ?_, fun h0 => ?_⟩
    · rw [hlen, hcount, hlast]
      simp only [Bool.false_eq_true, if_false, size_append, size_cons, size_nil,
        String.length_append, add_mul, one_mul, length_comma]
      simp only [add_mul, one_mul] at hchars
      omega
    · simp only [String.length_append, length_comma] at h0
      omega

theorem Written.foldl (hpfx : pfx.length ≠ 0) : Written pfx isLast rows
    (rows.foldl (Batches.addRow pfx batch_size isLast) (Batches.start pfx)) := by
  induction rows using List.reverseRecOn with
  | nil => exact Written.start hpfx
  | append_singleton rows row ih =>
    rw [List.foldl_concat]
    exact ih.addRow hpfx

theorem length_command (h : batch ≠ []) :
    (command pfx batch).length = pfx.length + size batch + batch.length := by
  obtain ⟨batch, row, rfl⟩ : ∃ batch' row, batch = batch' ++ [row] :=
    ⟨_, _, (List.dropLast_append_getLast h).symm⟩
  have hpending : (pending batch).length = size batch + batch.length := by
    induction batch with
    | nil => rfl
    | cons r batch ih =>
      have hcons : (pending (r :: batch)).length = r.length + 1 + (pending batch).length := by
        simp [pending, String.length_append]
      rw [hcons, ih (by simp), size_cons, List.length_cons]
      omega
  simp only [command_append_row, String.length_append, hpending, size_append, size_cons, size_nil,
    List.length_append, List.length_singleton, length_semicolon]
  omega

/-- The characters of the commands of batches. -/
theorem size_commands {batches : List (List String)} (h : ∀ batch ∈ batches, batch ≠ []) :
    size (batches.map (command pfx)) =
      batches.length * pfx.length + size batches.flatten + batches.flatten.length := by
  induction batches with
  | nil => simp
  | cons batch batches ih =>
    have hhead := @length_command pfx batch (h batch (by simp))
    have htail := ih fun b hb => h b (by simp [hb])
    simp only [List.map_cons, size_cons, List.length_cons, List.flatten_cons, size_append,
      List.length_append, add_mul, one_mul, hhead, htail]
    omega

/-- If the commands have all rows, the buffer is empty, or it holds the prefix and no row was
    taken for the last one. -/
theorem Written.text_length (h : Written pfx isLast rows s)
    (hbatched : Batched pfx batch_size rows s.cmds) :
    s.text.length + lasts isLast rows.length * pfx.length = pfx.length := by
  obtain ⟨batches, hcmds, rfl, hsizes⟩ := hbatched
  have hne : ∀ batch ∈ batches, batch ≠ [] := by
    intro batch hmem hnil
    have hpos := (hsizes batch hmem).1
    simp [hnil] at hpos
  have hchars := h.chars
  rw [hcmds, size_commands hne, List.length_map, add_mul, one_mul] at hchars
  omega

/-- Then rows that were taken for the last one have been the last. -/
theorem Written.last_of_batched (h : Written pfx isLast rows s) (hpfx : pfx.length ≠ 0)
    (hbatched : Batched pfx batch_size rows s.cmds) (hcount : lasts isLast rows.length ≠ 0) :
    (∀ j, 0 < j → j < rows.length → isLast j = false) ∧ isLast rows.length = true := by
  have htext := h.text_length hbatched
  have hpos := Nat.pos_of_ne_zero hcount
  have hone : lasts isLast rows.length = 1 := by
    by_contra hne
    have htwo : 2 ≤ lasts isLast rows.length := by omega
    have hmul := Nat.mul_le_mul_right pfx.length htwo
    omega
  rw [hone] at htext
  obtain ⟨hend, hrows⟩ := h.empty (by omega)
  refine ⟨?_, hend⟩
  intro j hj hlt
  obtain ⟨n, hn⟩ := Nat.exists_eq_succ_of_ne_zero
    (fun hzero => hrows (List.eq_nil_of_length_eq_zero hzero))
  rw [hn] at hone hend hlt
  rw [lasts_succ, if_pos hend] at hone
  exact not_last_of_lasts_eq_zero (n := n) (by omega) hj (by omega)

/-- **Batches.**  No row is lost or written twice exactly if only the last row is taken for the
    last one, or it ends a full batch. -/
theorem batched_iff (hpfx : pfx.length ≠ 0) (hbatch : 1 ≤ batch_size) :
    Batched pfx batch_size rows (commands pfx batch_size isLast rows) ↔
      (∀ j, 0 < j → j < rows.length → isLast j = false) ∧
        (isLast rows.length = true ∨ batch_size ∣ rows.length) := by
  have hwritten : Written pfx isLast rows (rows.foldl (addRow pfx batch_size isLast) (start pfx)) :=
    Written.foldl hpfx
  constructor
  · intro hbatched
    by_cases hcount : lasts isLast rows.length = 0
    · have hlast : ∀ j, 0 < j → j ≤ rows.length → isLast j = false := by
        intro j hj hle
        exact not_last_of_lasts_eq_zero hcount hj hle
      have htext := hwritten.text_length hbatched
      obtain ⟨full, batch, -, htext', -, -, hflat, -, hfull⟩ :=
        @Open.foldl pfx _ _ _ hbatch hlast
      rw [hcount, htext', String.length_append] at htext
      obtain rfl : batch = [] := pending_eq_nil (by omega)
      refine ⟨fun j hj hlt => hlast j hj hlt.le, Or.inr ?_⟩
      rw [← hflat, List.append_nil]
      exact dvd_length_flatten hfull
    · obtain ⟨hlast, hend⟩ := hwritten.last_of_batched hpfx hbatched hcount
      exact ⟨hlast, Or.inl hend⟩
  · rintro ⟨hlast, hend⟩
    rcases List.eq_nil_or_concat' rows with rfl | ⟨done, row, rfl⟩
    · exact (Open.start hbatch).batched hbatch (by simp)
    · rw [List.length_append, List.length_singleton] at hlast hend
      have hdone := @Open.foldl pfx _ _ done hbatch fun j hj hle => hlast j hj (by omega)
      unfold commands
      rw [List.foldl_concat]
      cases hrow : isLast (done.length + 1) with
      | true => exact hdone.batched_last hrow
      | false =>
        refine (hdone.addRow hrow).batched hbatch ?_
        rw [List.length_append, List.length_singleton]
        exact hend.resolve_left (by simp [hrow])

end

end TFA.Batches
