import Mathlib.Computability.Language
import Mathlib.Tactic.Common
import Qwin.Lib.Chars

/-!
# The matcher of grep

`match`, `matchhere` and `matchstar` of `grep.c`. A pointer into a string is what is left of
the string from there on; behind its end `*s` is the NUL.

A pattern is read as a list of items between two anchors, and an item stands for a language.
-/

namespace Qwin.Grep

open List
open Chars (Str deref)

def caret : UInt8 := '^'.toUInt8

def star : UInt8 := '*'.toUInt8

def dollar : UInt8 := '$'.toUInt8

def dot : UInt8 := '.'.toUInt8

theorem length_tail_lt {s : Str} (h : deref s ≠ 0) : s.tail.length < s.length := by
  cases s with
  | nil => exact absurd rfl h
  | cons c s => exact Nat.lt_succ_self _

mutual

def matchhere (re text : Str) : Bool :=
  if deref re = 0 then true
  else if deref re.tail = star then matchstar (deref re) re.tail.tail text
  else if deref re = dollar ∧ deref re.tail = 0 then deref text = 0
  else if deref text ≠ 0 ∧ (deref re = dot ∨ deref re = deref text) then
    matchhere re.tail text.tail
  else false
termination_by (re.length, text.length, 0)
decreasing_by
  · have := length_tail_lt ‹deref re ≠ 0›
    have := re.tail.length_tail
    exact Prod.Lex.left _ _ (by omega)
  · exact Prod.Lex.left _ _ (length_tail_lt ‹deref re ≠ 0›)

/-- `matchstar`: the `do` loop, with its condition behind the body -/
def matchstar (c : UInt8) (re text : Str) : Bool :=
  if matchhere re text then true
  else if deref text ≠ 0 ∧ (deref text = c ∨ c = dot) then matchstar c re text.tail
  else false
termination_by (re.length, text.length, 1)
decreasing_by
  · exact Prod.Lex.right _ (Prod.Lex.right _ Nat.zero_lt_one)
  · exact Prod.Lex.right _ (Prod.Lex.left _ _ (length_tail_lt (And.left ‹_›)))

end

/-- The `do` loop of `match` over the text. -/
def matchFrom (re text : Str) : Bool :=
  if matchhere re text then true
  else if deref text ≠ 0 then matchFrom re text.tail
  else false
termination_by text.length
decreasing_by exact length_tail_lt ‹_›

def matchText (re text : Str) : Bool :=
  if deref re = caret then matchhere re.tail text else matchFrom re text

/-! ## What a pattern means -/

inductive Item where
  | one (c : UInt8)
  -- `c*`
  | many (c : UInt8)

/-- A single character of a pattern accepts a character of the text. -/
def Accepts (c x : UInt8) : Prop := c = dot ∨ c = x

def Item.language : Item → Language UInt8
  | one c => {w | ∃ x, Accepts c x ∧ w = [x]}
  | many c => KStar.kstar {w | ∃ x, Accepts c x ∧ w = [x]}

structure Pattern where
  -- anchored at the start
  bol : Bool
  items : List Item
  -- anchored at the end
  eol : Bool

/-- The items of a pattern behind the first anchor, and if there is an anchor at the end. -/
def readItems : Str → List Item × Bool
  | [] => ([], false)
  | [c] => if c = dollar then ([], true) else ([.one c], false)
  | c :: d :: re =>
    if d = star then ((readItems re).map (.many c :: ·) id)
    else ((readItems (d :: re)).map (.one c :: ·) id)

def read (re : Str) : Pattern :=
  if re.head? = some caret then ⟨true, (readItems re.tail).1, (readItems re.tail).2⟩
  else ⟨false, (readItems re).1, (readItems re).2⟩

def Pattern.language (p : Pattern) : Language UInt8 := (p.items.map Item.language).prod

/-- Some part of the text, at the ends that are anchored, is in the language of the items. -/
def Pattern.Occurs (p : Pattern) (text : Str) : Prop :=
  ∃ u v w, text = u ++ v ++ w ∧ v ∈ p.language ∧ (p.bol = true → u = []) ∧ (p.eol = true → w = [])

/-- The text starts with a word of the language, and ends with it if `eol`. -/
def Starts (L : Language UInt8) (eol : Bool) (text : Str) : Prop :=
  ∃ v w, text = v ++ w ∧ v ∈ L ∧ (eol = true → w = [])

section Starts

variable {L : Language UInt8} {eol : Bool} {text : Str} {c : UInt8}

theorem starts_one : Starts 1 eol text ↔ (eol = true → text = []) := by
  constructor
  · rintro ⟨v, w, rfl, hv, hw⟩ heol
    rw [(Language.mem_one v).1 hv, hw heol, append_nil]
  · exact fun h => ⟨[], text, rfl, (Language.mem_one []).2 rfl, h⟩

theorem starts_cons : Starts ((Item.one c).language * L) eol text ↔
    ∃ x rest, text = x :: rest ∧ Accepts c x ∧ Starts L eol rest := by
  constructor
  · rintro ⟨v, w, rfl, hv, hw⟩
    obtain ⟨_, ⟨x, hx, rfl⟩, v, hv', rfl⟩ := Language.mem_mul.1 hv
    exact ⟨x, v ++ w, rfl, hx, v, w, rfl, hv', hw⟩
  · rintro ⟨x, _, rfl, hx, v, w, rfl, hv, hw⟩
    exact ⟨x :: v, w, rfl, Language.mem_mul.2 ⟨[x], ⟨x, hx, rfl⟩, v, hv, rfl⟩, hw⟩

theorem starts_many : Starts ((Item.many c).language * L) eol text ↔
    Starts L eol text ∨
      ∃ x rest, text = x :: rest ∧ Accepts c x ∧ Starts ((Item.many c).language * L) eol rest := by
  have hunfold : (Item.many c).language * L =
      L + (Item.one c).language * ((Item.many c).language * L) := by
    have := Language.one_add_self_mul_kstar_eq_kstar (Item.one c).language
    calc (Item.many c).language * L
        = (1 + (Item.one c).language * (Item.many c).language) * L := by
          rw [show (Item.many c).language = KStar.kstar (Item.one c).language from rfl, this]
      _ = _ := by rw [add_mul, one_mul, mul_assoc]
  rw [← starts_cons]
  conv_lhs => rw [hunfold]
  constructor
  · rintro ⟨v, w, rfl, hv | hv, hw⟩
    · exact Or.inl ⟨v, w, rfl, hv, hw⟩
    · exact Or.inr ⟨v, w, rfl, hv, hw⟩
  · rintro (⟨v, w, rfl, hv, hw⟩ | ⟨v, w, rfl, hv, hw⟩)
    · exact ⟨v, w, rfl, Or.inl hv, hw⟩
    · exact ⟨v, w, rfl, Or.inr hv, hw⟩

end Starts

/-! ## The matcher finds what the pattern means -/

def itemsLanguage (re : Str) : Language UInt8 := ((readItems re).1.map Item.language).prod

section

variable {re text : Str} {c d : UInt8}

theorem deref_eq_zero_iff (h : 0 ∉ text) : deref text = 0 ↔ text = [] := by
  cases text with
  | nil => simp [deref]
  | cons x text => simpa [deref] using fun hx : x = 0 => h (by simp [hx])

/-- The loop of `matchstar` around a `matchhere` that is right. -/
theorem matchstar_iff (L : Language UInt8) (eol : Bool)
    (hre : ∀ text, 0 ∉ text → (matchhere re text = true ↔ Starts L eol text)) (htext : 0 ∉ text) :
    matchstar c re text = true ↔ Starts ((Item.many c).language * L) eol text := by
  induction text with
  | nil => rw [matchstar, starts_many, ← hre [] htext]; simp [deref]
  | cons x text ih =>
    rw [mem_cons, not_or] at htext
    rw [matchstar, starts_many, ← hre (x :: text) (by simpa using htext)]
    by_cases hhere : matchhere re (x :: text) = true
    · simp [hhere]
    · by_cases hx : Accepts c x
      · have hcond : deref (x :: text) ≠ 0 ∧ (deref (x :: text) = c ∨ c = dot) :=
          ⟨Ne.symm htext.1, hx.symm.imp_left Eq.symm⟩
        rw [if_neg hhere, if_pos hcond, tail_cons, ih htext.2]
        simp [hhere, hx]
      · have hcond : ¬ (deref (x :: text) ≠ 0 ∧ (deref (x :: text) = c ∨ c = dot)) :=
          fun h => hx (h.2.symm.imp_right Eq.symm)
        rw [if_neg hhere, if_neg hcond]
        simp [hhere, hx]

/-- A single character of the pattern, and then the rest. -/
theorem matchhere_one (hc : c ≠ 0) (hstar : deref re ≠ star) (hend : ¬ (c = dollar ∧ deref re = 0))
    (L : Language UInt8) (eol : Bool)
    (hre : ∀ text, 0 ∉ text → (matchhere re text = true ↔ Starts L eol text)) (htext : 0 ∉ text) :
    matchhere (c :: re) text = true ↔ Starts ((Item.one c).language * L) eol text := by
  have hderef : deref (c :: re) = c := rfl
  rw [matchhere, hderef, if_neg hc, tail_cons, if_neg hstar, if_neg hend, starts_cons]
  cases text with
  | nil => simp [deref]
  | cons x text =>
    rw [mem_cons, not_or] at htext
    have hx : deref (x :: text) = x := rfl
    rw [hx, tail_cons]
    by_cases hacc : Accepts c x
    · rw [if_pos ⟨Ne.symm htext.1, hacc⟩, hre text htext.2]
      simp [hacc]
    · rw [if_neg fun h => hacc h.2]
      simp [hacc]

variable (hre : 0 ∉ re) (htext : 0 ∉ text)
include hre htext

theorem matchhere_iff :
    matchhere re text = true ↔ Starts (itemsLanguage re) (readItems re).2 text := by
  induction re using readItems.induct generalizing text with
  | case1 => simp [matchhere, deref, itemsLanguage, readItems, starts_one]
  | case2 =>
    have hread : readItems [dollar] = ([], true) := by rw [readItems, if_pos rfl]
    rw [itemsLanguage, hread, map_nil, prod_nil, starts_one, matchhere,
      if_neg (by decide), if_neg (by decide), if_pos (by decide), decide_eq_true_iff,
      deref_eq_zero_iff htext]
    simp
  | case3 c hc =>
    have hne : c ≠ 0 := fun h => hre (by simp [h])
    have hread : readItems [c] = ([.one c], false) := by rw [readItems, if_neg hc]
    rw [itemsLanguage, hread, map_singleton, prod_singleton, ← mul_one (Item.language _)]
    exact matchhere_one hne (by decide) (fun h => hc h.1) 1 false
      (fun text _ => by simp [matchhere, deref, starts_one]) htext
  | case4 c re ih =>
    have hne : c ≠ 0 := fun h => hre (by simp [h])
    have hread : readItems (c :: star :: re) = (readItems re).map (.many c :: ·) id := by
      rw [readItems, if_pos rfl]
    rw [itemsLanguage, hread, Prod.map_fst, Prod.map_snd, map_cons, prod_cons, matchhere,
      show deref (c :: star :: re) = c from rfl, if_neg hne, tail_cons,
      if_pos (show deref (star :: re) = star from rfl)]
    exact matchstar_iff (itemsLanguage re) (readItems re).2
      (fun text => ih fun h => hre (by simp [h])) htext
  | case5 c d re hd ih =>
    have hne : c ≠ 0 := fun h => hre (by simp [h])
    have hne' : d ≠ 0 := fun h => hre (by simp [h])
    have hread : readItems (c :: d :: re) = (readItems (d :: re)).map (.one c :: ·) id := by
      rw [readItems, if_neg hd]
    rw [itemsLanguage, hread, Prod.map_fst, Prod.map_snd, map_cons, prod_cons]
    have hend : ¬ (c = dollar ∧ deref (d :: re) = 0) := fun h => hne' h.2
    exact matchhere_one hne (show deref (d :: re) ≠ star from hd) hend (itemsLanguage (d :: re)) _
      (fun text => ih fun h => hre (mem_cons_of_mem c h)) htext

theorem matchFrom_iff : matchFrom re text = true ↔
    ∃ u rest, text = u ++ rest ∧ Starts (itemsLanguage re) (readItems re).2 rest := by
  induction text with
  | nil =>
    rw [matchFrom]
    simp [deref, matchhere_iff hre htext, eq_comm]
  | cons x text ih =>
    have hderef : deref (x :: text) ≠ 0 := fun h => htext (by simpa [deref] using Or.inl h.symm)
    rw [matchFrom, if_pos hderef, tail_cons]
    by_cases hhere : matchhere re (x :: text) = true
    · rw [if_pos hhere]
      exact iff_of_true rfl ⟨[], _, rfl, (matchhere_iff hre htext).1 hhere⟩
    · rw [if_neg hhere, ih fun h => htext (mem_cons_of_mem x h)]
      rw [matchhere_iff hre htext] at hhere
      constructor
      · rintro ⟨u, rest, rfl, hrest⟩
        exact ⟨x :: u, rest, rfl, hrest⟩
      · rintro ⟨u, rest, he, hrest⟩
        cases u with
        | nil => exact absurd (he ▸ hrest) hhere
        | cons y u =>
          rw [cons_append, List.cons.injEq] at he
          exact ⟨u, rest, he.2, hrest⟩

end

theorem occurs_bol (items : List Item) (eol : Bool) (text : Str) :
    Pattern.Occurs ⟨true, items, eol⟩ text ↔ Starts (items.map Item.language).prod eol text := by
  constructor
  · rintro ⟨u, v, w, rfl, hv, hu, hw⟩
    exact ⟨v, w, by rw [hu rfl, nil_append], hv, hw⟩
  · rintro ⟨v, w, rfl, hv, hw⟩
    exact ⟨[], v, w, rfl, hv, fun _ => rfl, hw⟩

theorem occurs_anywhere (items : List Item) (eol : Bool) (text : Str) :
    Pattern.Occurs ⟨false, items, eol⟩ text ↔
      ∃ u rest, text = u ++ rest ∧ Starts (items.map Item.language).prod eol rest := by
  constructor
  · rintro ⟨u, v, w, rfl, hv, -, hw⟩
    exact ⟨u, v ++ w, append_assoc u v w, v, w, rfl, hv, hw⟩
  · rintro ⟨u, _, rfl, v, w, rfl, hv, hw⟩
    exact ⟨u, v, w, (append_assoc u v w).symm, hv, nofun, hw⟩

/-- The matcher returns 1 if the pattern occurs in the text, and 0 otherwise. -/
theorem match_iff_occurs (re text : Str) (hre : 0 ∉ re) (htext : 0 ∉ text) :
    matchText re text = true ↔ (read re).Occurs text := by
  have hcaret : deref re = caret ↔ re.head? = some caret := by
    cases re with
    | nil => decide
    | cons c re => simp [deref]
  by_cases h : deref re = caret
  · rw [matchText, if_pos h, read, if_pos (hcaret.1 h), occurs_bol]
    exact matchhere_iff (fun h0 => hre (mem_of_mem_tail h0)) htext
  · rw [matchText, if_neg h, read, if_neg (mt hcaret.2 h), occurs_anywhere]
    exact matchFrom_iff hre htext

/-- The pattern `^a*b$` and the text `aab`. -/
theorem match_iff_occurs_anchored :
    matchText [caret, 97, star, 98, dollar] [97, 97, 98] = true ↔
      (read [caret, 97, star, 98, dollar]).Occurs [97, 97, 98] :=
  match_iff_occurs _ _ (by decide) (by decide)

end Qwin.Grep
