import Eikonal.Json.Printer
import Eikonal.Json.Reader
import Eikonal.Proofs.Binary64.Decimal
import Mathlib.Data.List.TakeWhile

/-! Numbers in JSON text. A whole number is read back from its digits, and a finite binary64 number
from the digits of its shortest decimal, in whichever of the three forms they are written: the zeros
that a form leaves out or adds move between the digits and the exponent. -/

namespace Eikonal

/-! ### Digits -/

/-- The units of some characters. -/
def Text.ofChars (l : List Char) : Text := l.flatMap Text.ofChar

/-- Whether a text can follow a number: it is empty, or a comma or a closing bracket comes first. -/
def Text.EndsNumber (t : Text) : Prop := ∀ u ∈ t.head?, u = 0x2C ∨ u = 0x5D ∨ u = 0x7D

/-- Whether the first unit of a text, if there is one, is no digit. -/
def Text.NoDigit (t : Text) : Prop := ∀ u ∈ t.head?, Text.isDigit u = false

variable {l ds ws : List Char} {t rest : Text} {c : Char} {n d k : Nat} {e : Int}

theorem isDigit_iff : c.isDigit ↔ 48 ≤ c.toNat ∧ c.toNat ≤ 57 := by
  unfold Char.isDigit
  rw [Bool.and_eq_true, decide_eq_true_eq, decide_eq_true_eq]
  exact Iff.rfl

namespace Text

theorem ofString_ofList (l : List Char) : ofString (String.ofList l) = ofChars l := by
  rw [ofString, String.toList_ofList, ofChars]

theorem ofString_append (a b : String) : ofString (a ++ b) = ofString a ++ ofString b := by
  rw [ofString, String.toList_append, List.flatMap_append, ofString, ofString]

theorem ofChars_append (l l' : List Char) : ofChars (l ++ l') = ofChars l ++ ofChars l' :=
  List.flatMap_append

theorem ofChar_of_isDigit (hc : c.isDigit) : ofChar c = [UInt16.ofNat c.toNat] := by
  unfold ofChar
  have := isDigit_iff.mp hc
  dsimp only
  rw [if_pos (by omega)]

theorem toNat_unit (hc : c.isDigit) : (UInt16.ofNat c.toNat).toNat = c.toNat := by
  have := isDigit_iff.mp hc
  rw [UInt16.toNat_ofNat', Nat.mod_eq_of_lt (by omega)]

theorem isDigit_unit (hc : c.isDigit) : isDigit (UInt16.ofNat c.toNat) := by
  have := isDigit_iff.mp hc
  simp only [isDigit, Bool.and_eq_true, decide_eq_true_eq, UInt16.le_iff_toNat_le, toNat_unit hc]
  exact this

theorem ofChars_cons (hc : c.isDigit) : ofChars (c :: l) = UInt16.ofNat c.toNat :: ofChars l := by
  rw [ofChars, List.flatMap_cons, ofChar_of_isDigit hc]
  rfl

theorem length_ofChars (h : ∀ c ∈ l, c.isDigit) : (ofChars l).length = l.length := by
  induction l with
  | nil => rfl
  | cons c l ih =>
    obtain ⟨hc, hl⟩ := List.forall_mem_cons.mp h
    rw [ofChars_cons hc, List.length_cons, List.length_cons, ih hl]

theorem isDigit_of_mem_ofChars (h : ∀ c ∈ l, c.isDigit) : ∀ u ∈ ofChars l, isDigit u := by
  intro u hu
  obtain ⟨c, hc, hu⟩ := List.mem_flatMap.mp hu
  rw [ofChar_of_isDigit (h c hc), List.mem_singleton] at hu
  rw [hu]
  exact isDigit_unit (h c hc)

/-- Digits in units and in characters have the same value. -/
theorem digitsValue_ofChars (h : ∀ c ∈ l, c.isDigit) :
    digitsValue (ofChars l) = Nat.ofDigitChars 10 l 0 := by
  have hfold : ∀ init, (ofChars l).foldl (fun n u => n * 10 + (u.toNat - 0x30)) init =
      Nat.ofDigitChars 10 l init := by
    induction l with
    | nil => exact fun _ => rfl
    | cons c l ih =>
      intro init
      obtain ⟨hc, hl⟩ := List.forall_mem_cons.mp h
      rw [ofChars_cons hc, List.foldl_cons, ih hl, Nat.ofDigitChars_cons, toNat_unit hc,
        Nat.mul_comm]
      rfl
  exact hfold 0

theorem EndsNumber.noDigit (h : EndsNumber rest) : NoDigit rest := by
  intro u hu
  rcases h u hu with rfl | rfl | rfl <;> decide

theorem EndsNumber.ne (h : EndsNumber rest) (v : UInt16) (hv : v = 0x2E ∨ v = 0x65 ∨ v = 0x45) :
    rest.head? ≠ some v := by
  intro hu
  rcases h v hu with rfl | rfl | rfl <;> revert hv <;> decide

/-- The digits are read up to the first unit that is none. -/
theorem span_ofChars (h : ∀ c ∈ l, c.isDigit) (hrest : NoDigit rest) :
    (ofChars l ++ rest).takeWhile isDigit = ofChars l ∧
      (ofChars l ++ rest).dropWhile isDigit = rest := by
  have hall := isDigit_of_mem_ofChars h
  have hnil : rest.takeWhile isDigit = [] ∧ rest.dropWhile isDigit = rest := by
    cases rest with
    | nil => exact ⟨rfl, rfl⟩
    | cons u rest =>
      have hu : isDigit u = false := hrest u rfl
      exact ⟨List.takeWhile_cons_of_neg (by simp [hu]), List.dropWhile_cons_of_neg (by simp [hu])⟩
  rw [List.takeWhile_append_of_pos hall, List.dropWhile_append_of_pos hall, hnil.1, hnil.2,
    List.append_nil]
  exact ⟨rfl, rfl⟩

end Text

/-- The digits of a positive number do not begin with a zero. -/
theorem head?_toDigits_ne (hn : n ≠ 0) : (Nat.toDigits 10 n).head? ≠ some '0' := by
  induction n using Nat.strongRecOn with
  | ind n ih =>
    by_cases h : n < 10
    · have hchar : ∀ n < 10, n ≠ 0 → n.digitChar ≠ '0' := by decide
      rw [Nat.toDigits_of_lt_base h]
      simpa using hchar n h hn
    · rw [Nat.toDigits_of_base_le (by decide) (by omega), List.head?_append_of_ne_nil _
        Nat.toDigits_ne_nil]
      exact ih (n / 10) (by omega) (by omega)

theorem isDigit_of_mem_toDigits : ∀ c ∈ Nat.toDigits 10 n, c.isDigit := fun _ hc =>
  Nat.isDigit_of_mem_toDigits (by decide) (by decide) hc

namespace Json

/-! ### The parts of a numeral -/

/-- Digits that can stand before a point: a lone zero, or digits that do not begin with one. -/
structure IsWhole (ws : List Char) : Prop where
  digits : ∀ c ∈ ws, c.isDigit
  ne_nil : ws ≠ []
  lead : ws = ['0'] ∨ ws.head? ≠ some '0'

theorem isWhole_zero : IsWhole ['0'] :=
  ⟨List.forall_mem_singleton.mpr rfl, List.cons_ne_nil _ _, Or.inl rfl⟩

theorem isWhole_toDigits (n : Nat) : IsWhole (Nat.toDigits 10 n) := by
  refine ⟨isDigit_of_mem_toDigits, Nat.toDigits_ne_nil, ?_⟩
  by_cases hn : n = 0
  · exact Or.inl (by rw [hn, Nat.toDigits_zero])
  · exact Or.inr (head?_toDigits_ne hn)

theorem IsWhole.wholeDigits? (h : IsWhole ws) (hrest : rest.NoDigit) :
    wholeDigits? (Text.ofChars ws ++ rest) = some (Text.ofChars ws, rest) := by
  obtain ⟨hspan, hdrop⟩ := Text.span_ofChars h.digits hrest
  rcases h.lead with rfl | hlead
  · rfl
  · obtain ⟨c, ws, rfl⟩ := List.exists_cons_of_ne_nil h.ne_nil
    obtain ⟨hc, -⟩ := List.forall_mem_cons.mp h.digits
    have hne : UInt16.ofNat c.toNat ≠ 0x30 := by
      intro heq
      refine hlead (congrArg some (Char.toNat_inj.mp ?_))
      rw [← Text.toNat_unit hc, heq]
      rfl
    rw [Text.ofChars_cons hc, List.cons_append] at hspan hdrop ⊢
    unfold Json.wholeDigits?
    split
    · rename_i heq
      exact absurd (List.cons.inj heq).1 hne
    · rw [hspan, hdrop]
      rfl

theorem fraction?_ofChars (h : ∀ c ∈ ds, c.isDigit) (hne : ds ≠ []) (hrest : rest.NoDigit) :
    fraction? (0x2E :: (Text.ofChars ds ++ rest)) = some (Text.ofChars ds, rest) := by
  obtain ⟨hspan, hdrop⟩ := Text.span_ofChars h hrest
  obtain ⟨c, ds, rfl⟩ := List.exists_cons_of_ne_nil hne
  obtain ⟨hc, -⟩ := List.forall_mem_cons.mp h
  simp only [fraction?, hspan, hdrop]
  rw [Text.ofChars_cons hc]
  rfl

theorem fraction?_eq_none (h : rest.head? ≠ some 0x2E) : fraction? rest = none := by
  unfold fraction?
  split
  · exact absurd rfl h
  · rfl

theorem exponent?_eq_none (h : rest.head? ≠ some 0x65) (h' : rest.head? ≠ some 0x45) :
    exponent? rest = none := by
  unfold exponent?
  split
  · rw [List.head?_cons, ne_eq, Option.some_inj] at h h'
    simp [h, h']
  · rfl

/-- Two digits or more, as an exponent is written. -/
theorem digits_spec (n k : Nat) : (∀ c ∈ Binary64.digits n k, c.isDigit) ∧
    Binary64.digits n k ≠ [] ∧ Nat.ofDigitChars 10 (Binary64.digits n k) 0 = n := by
  have hlist : (toString n).toList = Nat.toDigits 10 n := Nat.toList_repr
  unfold Binary64.digits
  dsimp only
  rw [hlist]
  refine ⟨fun c hc => ?_, ?_, ?_⟩
  · rcases List.mem_append.mp hc with hc | hc
    · rw [List.eq_of_mem_replicate hc]
      rfl
    · exact isDigit_of_mem_toDigits c hc
  · exact List.append_ne_nil_of_right_ne_nil _ Nat.toDigits_ne_nil
  · rw [Nat.ofDigitChars_append, Nat.ofDigitChars_replicate_zero, Nat.mul_zero,
      Nat.ofDigitChars_ten_toDigits]

theorem exponent?_exponentText (e : Int) (hrest : rest.NoDigit) :
    exponent? (Text.ofString (Binary64.exponentText e) ++ rest) = some (e, rest) := by
  obtain ⟨hdigits, hne, hvalue⟩ := digits_spec e.natAbs 2
  obtain ⟨hspan, hdrop⟩ := Text.span_ofChars hdigits hrest
  have hval := Text.digitsValue_ofChars hdigits
  rw [hvalue] at hval
  obtain ⟨c, l, hl⟩ := List.exists_cons_of_ne_nil hne
  have hempty : (Text.ofChars (Binary64.digits e.natAbs 2)).isEmpty = false := by
    rw [hl, Text.ofChars_cons (hdigits c (by simp [hl]))]
    rfl
  unfold Binary64.exponentText
  rw [Text.ofString_append, Text.ofString_ofList]
  split
  · rename_i he
    rw [show Text.ofString "e-" = [0x65, 0x2D] from rfl]
    simp only [List.cons_append, List.nil_append, exponent?, List.head?_cons, hspan, hdrop, hempty,
      hval, decide_true, Bool.true_or, if_true, beq_self_eq_true, List.drop_succ_cons,
      List.drop_zero, Bool.false_eq_true, if_false]
    rw [show -(e.natAbs : Int) = e by omega]
  · rename_i he
    rw [show Text.ofString "e+" = [0x65, 0x2B] from rfl]
    have hplus : ((some 0x2B : Option UInt16) == some 0x2D) = false := rfl
    simp only [List.cons_append, List.nil_append, exponent?, List.head?_cons, hspan, hdrop, hempty,
      hval, decide_true, Bool.true_or, if_true, beq_self_eq_true, List.drop_succ_cons,
      List.drop_zero, Bool.false_eq_true, if_false, hplus, Bool.false_or]
    rw [show (e.natAbs : Int) = e by omega]

/-! ### Numerals -/

theorem unsigned_toDigits (negative : Bool) (hn : n < 10 ^ Text.maxDigits)
    (hrest : rest.EndsNumber) :
    unsigned negative (Text.ofChars (Nat.toDigits 10 n) ++ rest) =
      .ok (.int (if negative then -(n : Int) else n), rest) := by
  have hfraction := fraction?_eq_none (hrest.ne 0x2E (by decide))
  have hexponent := exponent?_eq_none (hrest.ne 0x65 (by decide)) (hrest.ne 0x45 (by decide))
  have hlength : (Text.ofChars (Nat.toDigits 10 n)).length ≤ Text.maxDigits := by
    rw [Text.length_ofChars isDigit_of_mem_toDigits]
    exact (Nat.length_toDigits_le_iff (by decide) (by decide)).mpr hn
  have hvalue : Text.digitsValue (Text.ofChars (Nat.toDigits 10 n)) = n := by
    rw [Text.digitsValue_ofChars isDigit_of_mem_toDigits, Nat.ofDigitChars_ten_toDigits]
  unfold unsigned
  rw [(isWhole_toDigits n).wholeDigits? hrest.noDigit]
  simp only [hfraction, Option.map_none, Option.getD_none, hexponent, Option.isNone_none,
    Bool.and_self, if_true, if_neg (Nat.not_lt.mpr hlength), hvalue]

theorem unsigned_fraction (negative : Bool) (hw : IsWhole ws) (hds : ∀ c ∈ ds, c.isDigit)
    (hne : ds ≠ []) (hrest : rest.EndsNumber) :
    unsigned negative (Text.ofChars ws ++ 0x2E :: (Text.ofChars ds ++ rest)) =
      .ok (.float (Binary64.ofDecimal negative (Nat.ofDigitChars 10 (ws ++ ds) 0) (-ds.length)),
        rest) := by
  have hpoint : Text.NoDigit (0x2E :: (Text.ofChars ds ++ rest)) := by
    intro u hu
    cases hu
    rfl
  have hfraction := fraction?_ofChars hds hne hrest.noDigit
  have hexponent := exponent?_eq_none (hrest.ne 0x65 (by decide)) (hrest.ne 0x45 (by decide))
  have hvalue : Text.digitsValue (Text.ofChars ws ++ Text.ofChars ds) =
      Nat.ofDigitChars 10 (ws ++ ds) 0 := by
    rw [← Text.ofChars_append, Text.digitsValue_ofChars]
    exact List.forall_mem_append.mpr ⟨hw.digits, hds⟩
  unfold unsigned
  rw [hw.wholeDigits? hpoint]
  simp only [hfraction, Option.map_some, Option.getD_some, hexponent, Option.map_none,
    Option.getD_none, Option.isNone_some, Bool.false_and, Bool.false_eq_true, if_false, hvalue,
    Text.length_ofChars hds, zero_sub]

theorem unsigned_scientific (negative : Bool) (hw : IsWhole ws) (hds : ∀ c ∈ ds, c.isDigit)
    (hrest : rest.EndsNumber) :
    unsigned negative (Text.ofChars ws ++ ((if ds = [] then [] else 0x2E :: Text.ofChars ds) ++
        (Text.ofString (Binary64.exponentText e) ++ rest))) =
      .ok (.float (Binary64.ofDecimal negative (Nat.ofDigitChars 10 (ws ++ ds) 0) (e - ds.length)),
        rest) := by
  have hmark : ∃ t, Text.ofString (Binary64.exponentText e) ++ rest = 0x65 :: t := by
    unfold Binary64.exponentText
    rw [Text.ofString_append]
    split
    · exact ⟨_, rfl⟩
    · exact ⟨_, rfl⟩
  obtain ⟨t, ht⟩ := hmark
  have hexponent := exponent?_exponentText e hrest.noDigit
  have hnodigit : Text.NoDigit (0x65 :: t) := by
    intro u hu
    cases hu
    rfl
  have hvalue : Text.digitsValue (Text.ofChars ws ++ Text.ofChars ds) =
      Nat.ofDigitChars 10 (ws ++ ds) 0 := by
    rw [← Text.ofChars_append, Text.digitsValue_ofChars]
    exact List.forall_mem_append.mpr ⟨hw.digits, hds⟩
  rw [ht] at hexponent ⊢
  unfold unsigned
  by_cases hne : ds = []
  · subst hne
    have hfraction : fraction? (0x65 :: t) = none := rfl
    rw [if_pos rfl, List.nil_append, hw.wholeDigits? hnodigit]
    simp only [hfraction, Option.map_none, Option.getD_none, hexponent, Option.map_some,
      Option.getD_some, Option.isNone_none, Option.isNone_some, Bool.true_and, Bool.false_eq_true,
      if_false]
    rw [show Text.digitsValue (Text.ofChars ws ++ []) = _ from hvalue]
    rfl
  · have hpoint : Text.NoDigit (0x2E :: (Text.ofChars ds ++ 0x65 :: t)) := by
      intro u hu
      cases hu
      rfl
    have hfraction := fraction?_ofChars hds hne hnodigit
    rw [if_neg hne, List.cons_append, hw.wholeDigits? hpoint]
    simp only [hfraction, Option.map_some, Option.getD_some, hexponent, Option.isNone_some,
      Bool.false_and, Bool.false_eq_true, if_false, hvalue, Text.length_ofChars hds]

/-! ### Shortest decimals -/

theorem ofDecimal_mul_pow (negative : Bool) (d : Nat) (e : Int) (k : Nat) :
    Binary64.ofDecimal negative (d * 10 ^ k) (e - k) = Binary64.ofDecimal negative d e := by
  rw [Binary64.ofDecimal, Binary64.ofDecimal, Binary64.codeOfDecimal_mul_pow]

theorem trimZeros_append (l : List Char) :
    ∃ z, l = Binary64.trimZeros l ++ List.replicate z '0' := by
  have hsplit := List.takeWhile_append_dropWhile (p := (· == '0')) (l := l.reverse)
  refine ⟨(l.reverse.takeWhile (· == '0')).length, ?_⟩
  have hzeros : (l.reverse.takeWhile (· == '0')).reverse =
      List.replicate (l.reverse.takeWhile (· == '0')).length '0' := by
    rw [List.eq_replicate_iff, List.length_reverse]
    refine ⟨rfl, fun c hc => ?_⟩
    simpa using List.mem_takeWhile_imp (List.mem_reverse.mp hc)
  rw [Binary64.trimZeros, ← hzeros, ← List.reverse_append, hsplit, List.reverse_reverse]

/-- The digits of a positive number without the zeros at their end, which count in the exponent. -/
theorem exists_trimmed (hd : d ≠ 0) : ∃ c l z, Binary64.trimZeros (Nat.toDigits 10 d) = c :: l ∧
    (Nat.toDigits 10 d).length = l.length + 1 + z ∧ (∀ x ∈ c :: l, x.isDigit) ∧ c ≠ '0' ∧
      ∀ negative e, Binary64.ofDecimal negative (Nat.ofDigitChars 10 (c :: l) 0) (e + z) =
        Binary64.ofDecimal negative d e := by
  obtain ⟨z, hz⟩ := trimZeros_append (Nat.toDigits 10 d)
  have hhead := head?_toDigits_ne hd
  have hlength := congrArg List.length hz
  have hvalue : Nat.ofDigitChars 10 (Binary64.trimZeros (Nat.toDigits 10 d)) 0 * 10 ^ z = d := by
    rw [Nat.mul_comm, ← Nat.ofDigitChars_replicate_zero, ← Nat.ofDigitChars_append, ← hz,
      Nat.ofDigitChars_ten_toDigits]
  have hdigits : ∀ x ∈ Binary64.trimZeros (Nat.toDigits 10 d), x.isDigit := fun x hx =>
    isDigit_of_mem_toDigits x (by rw [hz]; exact List.mem_append_left _ hx)
  rw [List.length_append, List.length_replicate] at hlength
  cases htrim : Binary64.trimZeros (Nat.toDigits 10 d) with
  | nil =>
    rw [htrim, Nat.ofDigitChars_nil, Nat.zero_mul] at hvalue
    exact absurd hvalue.symm hd
  | cons c l =>
    rw [htrim] at hz hlength hvalue hdigits
    refine ⟨c, l, z, rfl, hlength, hdigits, ?_, fun negative e => ?_⟩
    · rintro rfl
      rw [hz] at hhead
      exact hhead rfl
    · rw [← ofDecimal_mul_pow _ _ _ z, hvalue, Int.add_sub_cancel]

/-! In the three forms of a decimal, `c` and the digits of `l` are all digits of the number, the
first of them not zero. -/

/-- One digit before the point, the others after it, and an exponent. -/
theorem unsigned_mark (negative : Bool) (hdigits : ∀ x ∈ c :: l, x.isDigit) (hc : c ≠ '0') (k : Int)
    (hrest : rest.EndsNumber) :
    unsigned negative (Text.ofString ((if (c :: l).length ≤ 1 then String.ofList (c :: l) else
        String.ofList ((c :: l).take 1) ++ "." ++ String.ofList ((c :: l).drop 1)) ++
          Binary64.exponentText k) ++ rest) =
      .ok (.float (Binary64.ofDecimal negative (Nat.ofDigitChars 10 (c :: l) 0) (k - l.length)),
        rest) := by
  obtain ⟨hcd, hld⟩ := List.forall_mem_cons.mp hdigits
  have hw : IsWhole [c] := ⟨by simpa using hcd, by simp, Or.inr (by simpa using hc)⟩
  have hmark : Text.ofString (if (c :: l).length ≤ 1 then String.ofList (c :: l) else
      String.ofList ((c :: l).take 1) ++ "." ++ String.ofList ((c :: l).drop 1)) =
        Text.ofChars [c] ++ if l = [] then [] else 0x2E :: Text.ofChars l := by
    cases l with
    | nil => rw [if_pos (by simp), if_pos rfl, List.append_nil, Text.ofString_ofList]
    | cons c' l =>
      rw [if_neg (by simp), if_neg (by simp), Text.ofString_append, Text.ofString_append,
        Text.ofString_ofList ((c :: c' :: l).take 1), Text.ofString_ofList ((c :: c' :: l).drop 1),
        List.append_assoc]
      rfl
  rw [Text.ofString_append, hmark, List.append_assoc, List.append_assoc,
    unsigned_scientific negative hw hld hrest]
  rfl

/-- A lone zero before the point, and `m` zeros between it and the digits. -/
theorem unsigned_small (negative : Bool) (hdigits : ∀ x ∈ c :: l, x.isDigit) (m : Nat)
    (hrest : rest.EndsNumber) :
    unsigned negative (Text.ofString ("0." ++ String.ofList (List.replicate m '0') ++
        String.ofList (c :: l)) ++ rest) =
      .ok (.float (Binary64.ofDecimal negative (Nat.ofDigitChars 10 (c :: l) 0)
        (-(m + (l.length + 1) : Nat))), rest) := by
  have hplaces : ∀ x ∈ List.replicate m '0' ++ c :: l, x.isDigit := by
    refine List.forall_mem_append.mpr ⟨fun x hx => ?_, hdigits⟩
    rw [List.eq_of_mem_replicate hx]
    rfl
  have hread := unsigned_fraction negative isWhole_zero hplaces (by simp) hrest
  rw [Nat.ofDigitChars_append, Nat.ofDigitChars_append, Nat.ofDigitChars_replicate_zero,
    show Nat.ofDigitChars 10 ['0'] 0 = 0 from rfl, Nat.mul_zero, List.length_append,
    List.length_replicate, List.length_cons, Text.ofChars_append] at hread
  rw [Text.ofString_append, Text.ofString_append, Text.ofString_ofList (List.replicate _ _),
    Text.ofString_ofList (c :: l), show Text.ofString "0." = Text.ofChars ['0'] ++ [0x2E] from rfl]
  simpa using hread

/-- The point after `m + 1` digits, with zeros for those that are missing, and a lone zero after it
if no digit is left. -/
theorem unsigned_positional (negative : Bool) (hdigits : ∀ x ∈ c :: l, x.isDigit) (hc : c ≠ '0')
    (m : Nat) (hrest : rest.EndsNumber) :
    unsigned negative (Text.ofString (String.ofList ((c :: l).take (m + 1)) ++
        String.ofList (List.replicate (m + 1 - (c :: l).length) '0') ++ "." ++
          (if ((c :: l).drop (m + 1)).isEmpty then "0" else
            String.ofList ((c :: l).drop (m + 1)))) ++ rest) =
      .ok (.float (Binary64.ofDecimal negative (Nat.ofDigitChars 10 (c :: l) 0)
        ((m : Int) - l.length)), rest) := by
  have hw : IsWhole ((c :: l).take (m + 1) ++ List.replicate (m + 1 - (c :: l).length) '0') := by
    refine ⟨List.forall_mem_append.mpr ⟨fun x hx => hdigits x (List.mem_of_mem_take hx),
      fun x hx => ?_⟩, by simp, Or.inr (by simpa using hc)⟩
    rw [List.eq_of_mem_replicate hx]
    rfl
  rw [Text.ofString_append, Text.ofString_append, Text.ofString_append,
    Text.ofString_ofList (List.take _ _), Text.ofString_ofList (List.replicate _ _),
    ← Text.ofChars_append, show Text.ofString "." = [0x2E] from rfl]
  by_cases htail : (c :: l).drop (m + 1) = []
  · -- the zeros up to the point and the one after it go to the exponent
    have hlen : (c :: l).length ≤ m + 1 := List.drop_eq_nil_iff.mp htail
    have hread := unsigned_fraction negative hw isWhole_zero.digits isWhole_zero.ne_nil hrest
    rw [List.take_of_length_le hlen] at hread ⊢
    rw [Nat.ofDigitChars_append, Nat.ofDigitChars_append, Nat.ofDigitChars_replicate_zero,
      Nat.ofDigitChars_cons, Nat.ofDigitChars_nil, ← Nat.mul_assoc, ← Nat.pow_succ',
      Nat.mul_comm] at hread
    generalize hgap : m + 1 - (c :: l).length = gap at hread ⊢
    rw [List.length_cons] at hgap hlen
    rw [htail, if_pos List.isEmpty_nil, show Text.ofString "0" = Text.ofChars ['0'] from rfl,
      ← ofDecimal_mul_pow negative _ (m - l.length) (gap + 1),
      show (m : Int) - l.length - (gap + 1 : Nat) = -1 by omega]
    simpa using hread
  · have hlen : m + 1 < (c :: l).length := by
      simpa [List.drop_eq_nil_iff] using htail
    have hread := unsigned_fraction negative hw (fun x hx => hdigits x (List.mem_of_mem_drop hx))
      htail hrest
    rw [show m + 1 - (c :: l).length = 0 by omega, List.replicate_zero, List.append_nil]
      at hread ⊢
    rw [List.take_append_drop, List.length_drop, List.length_cons] at hread
    rw [List.length_cons] at hlen
    rw [show -((l.length + 1 - (m + 1) : Nat) : Int) = m - l.length by omega] at hread
    rw [if_neg (by simpa using htail), Text.ofString_ofList (List.drop _ _)]
    simpa using hread

/-- The text of a positive decimal reads back as the number nearest to it. -/
theorem unsigned_decimalText (negative : Bool) (hd : d ≠ 0) (hrest : rest.EndsNumber) :
    unsigned negative (Text.ofString (Binary64.decimalText d e) ++ rest) =
      .ok (.float (Binary64.ofDecimal negative d e), rest) := by
  obtain ⟨c, l, z, htrim, hlength, hdigits, hc, hvalue⟩ := exists_trimmed hd
  have hlist : (toString d).toList = Nat.toDigits 10 d := Nat.toList_repr
  rw [← hvalue]
  unfold Binary64.decimalText
  dsimp only
  rw [hlist, htrim, hlength]
  generalize hk : e + ((l.length + 1 + z : Nat) : Int) - 1 = k
  split
  · rw [unsigned_mark negative hdigits hc k hrest, show k - l.length = e + z by omega]
  · split
    · rw [unsigned_small negative hdigits _ hrest,
        show (-((-k - 1).toNat + (l.length + 1) : Nat) : Int) = e + z by omega]
    · rw [unsigned_positional negative hdigits hc k.toNat hrest,
        show (k.toNat : Int) - l.length = e + z by omega]

end Json

end Eikonal
