import Qwin.Fs.Dir

/-!
# The entries of a directory

A directory is read as the list of its entries of sixteen bytes. What `dirlink` and
`sys_unlink` write replaces one entry or appends one. Names are compared up to their
first zero byte and up to `DIRSIZ` bytes, and `nameOf` is what the comparison sees.
-/

namespace Qwin.Fs

open List

/-! ## Names -/

/-- The part of a string that `namecmp` compares. -/
def nameOf (s : List UInt8) : List UInt8 := (cstring s).take DIRSIZ

theorem cstring_of_head_ne {s : List UInt8} (h : s.headD 0 ≠ 0) :
    cstring s = s.headD 0 :: cstring s.tail := by
  cases s with
  | nil => exact absurd rfl h
  | cons a s =>
    have ha : a ≠ 0 := h
    simp [cstring, ha]

theorem cstring_of_head_eq {s : List UInt8} (h : s.headD 0 = 0) : cstring s = [] := by
  cases s with
  | nil => rfl
  | cons a s =>
    have ha : a = 0 := h
    rw [cstring, ha, takeWhile_cons_of_neg (by decide)]

theorem strncmp_eq_zero_iff (n : ℕ) (s t : List UInt8) :
    strncmp s t n = 0 ↔ (cstring s).take n = (cstring t).take n := by
  induction n generalizing s t with
  | zero => simp [strncmp]
  | succ n ih =>
    rw [strncmp]
    by_cases hs : s.headD 0 = 0
    · rw [if_neg fun h => h.1 hs, cstring_of_head_eq hs, hs]
      by_cases ht : t.headD 0 = 0
      · rw [cstring_of_head_eq ht, ht]
        simp
      · have hne : (t.headD 0).toNat ≠ 0 := fun h => ht (UInt8.toNat_inj.1 h)
        rw [cstring_of_head_ne ht]
        simp only [UInt8.toNat_zero, take_succ_cons, take_nil]
        constructor
        · intro h
          omega
        · intro h
          cases h
    · rw [cstring_of_head_ne hs]
      by_cases heq : s.headD 0 = t.headD 0
      · have ht : t.headD 0 ≠ 0 := heq ▸ hs
        rw [if_pos ⟨hs, heq⟩, ih, cstring_of_head_ne ht, take_succ_cons,
          take_succ_cons, heq, List.cons.injEq]
        exact ⟨fun h => ⟨rfl, h⟩, fun h => h.2⟩
      · have hne : (s.headD 0).toNat ≠ (t.headD 0).toNat := fun h =>
          heq (UInt8.toNat_inj.1 h)
        rw [if_neg fun h => heq h.2, take_succ_cons]
        constructor
        · intro h
          omega
        · intro h
          by_cases ht : t.headD 0 = 0
          · rw [cstring_of_head_eq ht] at h
            cases h
          · rw [cstring_of_head_ne ht, take_succ_cons, List.cons.injEq] at h
            exact absurd h.1 heq

theorem namecmp_eq_zero_iff {s t : List UInt8} : namecmp s t = 0 ↔ nameOf s = nameOf t :=
  strncmp_eq_zero_iff DIRSIZ s t

theorem cstring_append_zero (s : List UInt8) (h : ∀ c ∈ s, c ≠ 0) (n : ℕ) :
    cstring (s ++ List.replicate n 0) = s := by
  rw [cstring, takeWhile_append_of_pos fun c hc => decide_eq_true (h c hc)]
  cases n with
  | zero => simp
  | succ n => simp [replicate_succ]

theorem ne_zero_of_mem_cstring {s : List UInt8} {c : UInt8} (h : c ∈ cstring s) : c ≠ 0 := by
  have := all_eq_true.1 (all_takeWhile (l := s) (p := fun c => decide (c ≠ 0))) c h
  exact of_decide_eq_true this

/-- The name that is stored is the name that is looked up. -/
theorem nameOf_strncpy (s : List UInt8) : nameOf (strncpy s DIRSIZ) = nameOf s := by
  have hne : ∀ c ∈ (cstring s).take DIRSIZ, c ≠ 0 := fun c hc =>
    ne_zero_of_mem_cstring (mem_of_mem_take hc)
  rw [nameOf, strncpy, cstring_append_zero _ hne, take_take, min_self, nameOf]

/-! ## Entries -/

def entryAt (data : List UInt8) (k : ℕ) : Dirent :=
  Dirent.get ((data.drop (DESIZE * k)).take DESIZE)

def entries (data : List UInt8) : List Dirent :=
  (List.range (data.length / DESIZE)).map (entryAt data)

def Dirent.Dotted (e : Dirent) : Prop := nameOf e.name = dot ∨ nameOf e.name = dotdot

instance (e : Dirent) : Decidable e.Dotted := inferInstanceAs (Decidable (_ ∨ _))

variable {data src : List UInt8} {k : ℕ}

@[simp] theorem length_entries (data : List UInt8) :
    (entries data).length = data.length / DESIZE := by
  rw [entries, length_map, length_range]

theorem getElem?_entries (h : k < data.length / DESIZE) :
    (entries data)[k]? = some (entryAt data k) := by
  rw [entries, List.getElem?_map, List.getElem?_range h, Option.map_some]

/-- Where the sixteen bytes of an entry are the same, so is the entry. -/
theorem entryAt_congr {data' : List UInt8} {k' : ℕ}
    (h : ∀ o, o < DESIZE → data'[DESIZE * k' + o]? = data[DESIZE * k + o]?) :
    entryAt data' k' = entryAt data k := by
  have heq : (data'.drop (DESIZE * k')).take DESIZE = (data.drop (DESIZE * k)).take DESIZE := by
    apply ext_getElem?
    intro o
    rw [List.getElem?_take, List.getElem?_take]
    split
    next ho => rw [List.getElem?_drop, List.getElem?_drop, h o ho]
    · rfl
  rw [entryAt, heq, entryAt]

section

variable (h : DESIZE * k ≤ data.length) (hs : src.length = DESIZE)
include h hs

theorem entryAt_splice_self : entryAt (splice data (DESIZE * k) src) k = Dirent.get src := by
  have heq : ((splice data (DESIZE * k) src).drop (DESIZE * k)).take DESIZE = src := by
    apply ext_getElem?
    intro o
    rw [List.getElem?_take]
    split
    next ho =>
      rw [List.getElem?_drop, getElem?_splice_inside (Nat.le_add_right _ _) (by omega) h,
        Nat.add_sub_cancel_left]
    · rw [List.getElem?_eq_none (by omega)]
  rw [entryAt, heq]

theorem entryAt_splice_of_ne {j : ℕ}
    (hj : j ≠ k) : entryAt (splice data (DESIZE * k) src) j = entryAt data j := by
  apply entryAt_congr
  intro o ho
  unfold DESIZE at ho hs
  rcases Nat.lt_or_gt_of_ne hj with hlt | hgt
  · exact getElem?_splice_before (by unfold DESIZE; omega) h
  · exact getElem?_splice_after (by unfold DESIZE; omega) h

end

theorem entries_splice (h : k < data.length / DESIZE) (hs : src.length = DESIZE) :
    entries (splice data (DESIZE * k) src) = (entries data).set k (Dirent.get src) := by
  have hle : DESIZE * k + DESIZE ≤ data.length := by
    unfold DESIZE at h ⊢
    omega
  have hk : DESIZE * k ≤ data.length := by omega
  have hlen : (splice data (DESIZE * k) src).length = data.length := by
    rw [length_splice hk, hs, Nat.max_eq_left hle]
  apply ext_getElem?
  intro j
  rcases Nat.lt_or_ge j (data.length / DESIZE) with hj | hj
  · rw [getElem?_entries (by rw [hlen]; exact hj)]
    by_cases hjk : j = k
    · rw [hjk, entryAt_splice_self hk hs, List.getElem?_set_self (by rw [length_entries]; exact h)]
    · rw [entryAt_splice_of_ne hk hs hjk, List.getElem?_set_ne (Ne.symm hjk), getElem?_entries hj]
  · rw [List.getElem?_eq_none (by rw [length_entries, hlen]; exact hj),
      List.getElem?_eq_none (by rw [length_set, length_entries]; exact hj)]

theorem entries_append (h : data.length = DESIZE * k) (hs : src.length = DESIZE) :
    entries (splice data (DESIZE * k) src) = entries data ++ [Dirent.get src] := by
  have hk : DESIZE * k ≤ data.length := by omega
  have hlen : (splice data (DESIZE * k) src).length = DESIZE * (k + 1) := by
    rw [length_splice hk, hs, Nat.max_eq_right (by omega)]
    rfl
  have hnew : (splice data (DESIZE * k) src).length / DESIZE = k + 1 := by
    rw [hlen, Nat.mul_div_cancel_left _ (by decide)]
  have hold : data.length / DESIZE = k := by
    rw [h, Nat.mul_div_cancel_left _ (by decide)]
  rw [entries, hnew, range_succ, map_append, map_singleton,
    entryAt_splice_self hk hs, entries, hold]
  congr 1
  apply map_congr_left
  intro j hj
  exact entryAt_splice_of_ne hk hs (Nat.ne_of_lt (mem_range.1 hj))

theorem entries_bytes_append (hs : src.length = DESIZE) (data : List UInt8) :
    entries (src ++ data) = Dirent.get src :: entries data := by
  have hdiv : (src ++ data).length / DESIZE = data.length / DESIZE + 1 := by
    rw [length_append, hs, Nat.add_comm, Nat.add_div_right _ (by decide)]
  have hfirst : entryAt (src ++ data) 0 = Dirent.get src := by
    rw [entryAt, Nat.mul_zero, drop_zero, ← hs, take_left]
  rw [entries, hdiv, range_succ_eq_map, map_cons, map_map, hfirst, entries]
  congr 1
  refine map_congr_left fun j _ => ?_
  have hdrop : DESIZE * (j + 1) = src.length + DESIZE * j := by
    rw [hs, Nat.mul_succ, Nat.add_comm]
  rw [Function.comp_apply, entryAt, Nat.succ_eq_add_one, hdrop, drop_append,
    drop_eq_nil_of_le (by omega), nil_append, Nat.add_sub_cancel_left, entryAt]

theorem length_bytes (inum : ℕ) (name : List UInt8) : (Dirent.bytes inum name).length = DESIZE := by
  simp only [Dirent.bytes, strncpy, length_cons, length_append, length_take, length_replicate]
  unfold DIRSIZ DESIZE
  omega

theorem get_bytes_inum {inum : ℕ} (h : inum < 65536) (name : List UInt8) :
    (Dirent.get (Dirent.bytes inum name)).inum = inum := by
  have h0 : (UInt8.ofNat inum).toNat = inum % 256 := UInt8.toNat_ofNat'
  have h1 : (UInt8.ofNat (inum / 256)).toNat = inum / 256 % 256 := UInt8.toNat_ofNat'
  simp only [Dirent.get, Dirent.bytes, getD_cons_zero, getD_cons_succ, h0, h1]
  omega

theorem get_bytes_name (inum : ℕ) (name : List UInt8) :
    nameOf (Dirent.get (Dirent.bytes inum name)).name = nameOf name := nameOf_strncpy name

end Qwin.Fs
