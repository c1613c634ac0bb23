import Mathlib.Tactic

/-! Records of different lengths one after the other, read in pieces from an offset on. A piece is made
of whole records, and it ends as soon as it is long enough. -/
namespace PiggyOs.Records

variable {α : Type*} (len : α → ℕ)

def total (records : List α) : ℕ := (records.map len).sum

/-- The records that end behind `offset`, where the first one starts at `start`. -/
def behind (offset : ℕ) : ℕ → List α → List α
  | _, [] => []
  | start, x :: xs =>
      if start + len x ≤ offset then behind offset (start + len x) xs else x :: behind offset (start + len x) xs

/-- As few records as are needed for `limit` bytes. -/
def piece : ℕ → List α → List α
  | _, [] => []
  | limit, x :: xs => if limit = 0 then [] else x :: piece (limit - len x) xs

variable {len} {limit offset start : ℕ} {x : α} {records rest : List α}

@[simp] lemma total_nil : total len [] = 0 := rfl

@[simp] lemma total_cons : total len (x :: records) = len x + total len records := List.sum_cons

@[simp] lemma total_append : total len (records ++ rest) = total len records + total len rest := by
  rw [total, List.map_append, List.sum_append]
  rfl

lemma total_pos (hpos : ∀ x ∈ records, 0 < len x) (h : records ≠ []) : 0 < total len records := by
  cases records with
  | nil => exact absurd rfl h
  | cons x records =>
    have := hpos x List.mem_cons_self
    rw [total_cons]
    omega

lemma behind_append : behind len offset start (records ++ rest) =
    behind len offset start records ++ behind len offset (start + total len records) rest := by
  induction records generalizing start with
  | nil => rfl
  | cons x records ih =>
    rw [List.cons_append, behind, behind, ih, total_cons, Nat.add_assoc]
    split_ifs <;> rfl

lemma total_behind_le (records rest : List α) :
    total len (behind len offset start records) ≤ total len (behind len offset start (records ++ rest)) := by
  rw [behind_append, total_append]
  exact Nat.le_add_right _ _

lemma behind_of_le (h : start + total len records ≤ offset) : behind len offset start records = [] := by
  induction records generalizing start with
  | nil => rfl
  | cons x records ih =>
    rw [total_cons] at h
    rw [behind, if_pos (by omega), ih (by omega)]

lemma behind_of_lt (hpos : ∀ x ∈ records, 0 < len x) (h : offset ≤ start) :
    behind len offset start records = records := by
  induction records generalizing start with
  | nil => rfl
  | cons x records ih =>
    have hx := hpos x List.mem_cons_self
    rw [behind, if_neg (by omega), ih (fun y hy => hpos y (List.mem_cons_of_mem _ hy)) (by omega)]

/-- Behind a whole number of records are the others. -/
lemma behind_total (hpos : ∀ x ∈ rest, 0 < len x) : behind len (total len records) 0 (records ++ rest) = rest := by
  rw [behind_append, behind_of_le (by omega), behind_of_lt hpos (by omega), List.nil_append]

lemma piece_isPrefix : piece len limit records <+: records := by
  induction records generalizing limit with
  | nil => exact List.prefix_rfl
  | cons x records ih =>
    rw [piece]
    split_ifs
    · exact List.nil_prefix
    · exact List.cons_prefix_cons.mpr ⟨rfl, ih⟩

lemma piece_ne_nil (hlimit : 0 < limit) (h : records ≠ []) : piece len limit records ≠ [] := by
  cases records with
  | nil => exact absurd rfl h
  | cons x records =>
    rw [piece, if_neg hlimit.ne']
    exact List.cons_ne_nil _ _

/-- A piece that is not long enough has all records. -/
lemma piece_of_lt (h : total len (piece len limit records) < limit) : piece len limit records = records := by
  induction records generalizing limit with
  | nil => rfl
  | cons x records ih =>
    rw [piece] at h ⊢
    split_ifs at h ⊢ with h0
    · omega
    · rw [total_cons] at h
      rw [ih (by omega)]

/-- A piece that is long enough stays as it is. -/
lemma piece_append_of_le (h : limit ≤ total len (piece len limit records)) :
    piece len limit (records ++ rest) = piece len limit records := by
  induction records generalizing limit with
  | nil =>
    obtain rfl : limit = 0 := by simpa [piece] using h
    cases rest <;> rfl
  | cons x records ih =>
    rw [piece] at h
    rw [List.cons_append, piece, piece]
    split_ifs at h ⊢
    · rfl
    · rw [total_cons] at h
      rw [ih (by omega)]

/-- Otherwise it gets the next record. -/
lemma piece_append_of_lt (h : total len (piece len limit records) < limit) :
    piece len limit (records ++ [x]) = piece len limit records ++ [x] := by
  induction records generalizing limit with
  | nil =>
    have h0 : limit ≠ 0 := Nat.ne_of_gt ((Nat.zero_le _).trans_lt h)
    simp [piece, h0]
  | cons y records ih =>
    rw [piece] at h
    rw [List.cons_append, piece, piece]
    split_ifs at h ⊢ with h0
    · omega
    · rw [total_cons] at h
      rw [ih (by omega), List.cons_append]

end PiggyOs.Records
