import Eikonal.Proofs.Json.Number
import Eikonal.Proofs.Json.Writable

/-! Reading undoes writing. What is written for a value is read as this value, whatever comes after
it in the text, as long as no number runs on: every part of the printer meets its part of the
reader, and the values follow by induction on their nesting. -/

namespace Eikonal

/-- A binary64 number is put together from its sign and its magnitude. -/
theorem Binary64.ofCode_eq (x : Binary64) : ofCode x.negative x.code = x := by
  obtain ⟨bits⟩ := x
  have hlt : bits.toNat < 2 ^ 64 := bits.toNat_lt
  have hdiv := Nat.div_add_mod bits.toNat (2 ^ 63)
  refine congrArg Binary64.mk (UInt64.toNat_inj.mp ?_)
  unfold negative code
  dsimp only
  rw [pow2_eq, UInt64.toNat_ofNat']
  split
  · rename_i h
    rw [decide_eq_true_eq] at h
    omega
  · rename_i h
    rw [decide_eq_true_eq] at h
    omega

namespace Json

variable {t rest : Text} {u : UInt16} {n : Int} {x : Binary64} {s : Text} {w : String}

/-! ### Words and numbers -/

theorem after?_eq_none {a : UInt16} {l : Text} (hw : Text.ofString w = a :: l) (h : u ≠ a) :
    after? w (u :: t) = none := by
  unfold after?
  rw [hw]
  simp [Ne.symm h]

theorem scalar_of_isDigit (hu : Text.isDigit u) : scalar (u :: t) = unsigned false (u :: t) := by
  have hne : u ≠ 0x6E ∧ u ≠ 0x74 ∧ u ≠ 0x66 ∧ u ≠ 0x4E ∧ u ≠ 0x49 ∧ u ≠ 0x2D := by
    refine ⟨?_, ?_, ?_, ?_, ?_, ?_⟩
    all_goals
      rintro rfl
      revert hu
      decide
  obtain ⟨h1, h2, h3, h4, h5, h6⟩ := hne
  unfold scalar
  rw [after?_eq_none rfl h1, after?_eq_none rfl h2, after?_eq_none rfl h3, after?_eq_none rfl h4,
    after?_eq_none rfl h5, after?_eq_none rfl h6]
  dsimp only
  split
  · rename_i heq
    exact absurd (List.cons.inj heq).1 h6
  · rfl

theorem scalar_of_minus (hu : Text.isDigit u) :
    scalar (0x2D :: u :: t) = unsigned true (u :: t) := by
  have hne : (0x49 : UInt16) ≠ u := by
    rintro rfl
    revert hu
    decide
  have hinf : after? "-Infinity" (0x2D :: u :: t) = none := by
    unfold after?
    rw [show Text.ofString "-Infinity" = 0x2D :: 0x49 :: [0x6E, 0x66, 0x69, 0x6E, 0x69, 0x74, 0x79]
      from rfl]
    simp [hne]
  unfold scalar
  rw [after?_eq_none (a := 0x6E) rfl (by decide), after?_eq_none (a := 0x74) rfl (by decide),
    after?_eq_none (a := 0x66) rfl (by decide), after?_eq_none (a := 0x4E) rfl (by decide),
    after?_eq_none (a := 0x49) rfl (by decide), hinf]
  rfl

/-- A numeral begins with a digit. -/
theorem exists_isDigit_of_unsigned {negative : Bool} {p : Json × Text}
    (h : unsigned negative t = .ok p) : ∃ u l, t = u :: l ∧ Text.isDigit u := by
  cases t with
  | nil => cases h
  | cons u l =>
    refine ⟨u, l, rfl, ?_⟩
    by_contra hu
    have hne : u ≠ 0x30 := by
      rintro rfl
      exact hu (by decide)
    have hwhole : wholeDigits? (u :: l) = none := by
      unfold wholeDigits?
      split
      · rename_i heq
        exact absurd (List.cons.inj heq).1 hne
      · rw [List.takeWhile_cons_of_neg hu]
        rfl
    unfold unsigned at h
    rw [hwhole] at h
    cases h

/-- A numeral with or without a minus before it. -/
theorem scalar_of_unsigned {negative : Bool} {p : Json × Text} (h : unsigned negative t = .ok p) :
    scalar ((if negative then [0x2D] else []) ++ t) = .ok p := by
  obtain ⟨u, l, rfl, hu⟩ := exists_isDigit_of_unsigned h
  cases negative with
  | true => exact (scalar_of_minus hu).trans h
  | false => exact (scalar_of_isDigit hu).trans h

theorem scalar_int (hn : n.natAbs < 10 ^ Text.maxDigits) (hrest : rest.EndsNumber) :
    scalar (Text.ofString (toString n) ++ rest) = .ok (.int n, rest) := by
  have htext : Text.ofString (toString n) =
      (if decide (n < 0) then [0x2D] else []) ++ Text.ofChars (Nat.toDigits 10 n.natAbs) := by
    cases n with
    | ofNat m =>
      show Text.ofString (toString m) = _
      rw [Nat.toString_eq_ofList_toDigits, Text.ofString_ofList]
      rfl
    | negSucc m =>
      show Text.ofString ("-" ++ toString (m + 1)) = _
      rw [Text.ofString_append, Nat.toString_eq_ofList_toDigits,
        Text.ofString_ofList (Nat.toDigits _ _), if_pos (decide_eq_true (Int.negSucc_lt_zero m))]
      rfl
  rw [htext, List.append_assoc, scalar_of_unsigned (unsigned_toDigits _ hn hrest)]
  by_cases h : n < 0
  · simp only [h, decide_true, if_true]
    rw [show -(n.natAbs : Int) = n by omega]
  · simp only [h, decide_false, Bool.false_eq_true, if_false]
    rw [show (n.natAbs : Int) = n by omega]

/-- The text of a finite magnitude reads back as its code. -/
theorem unsigned_shortestMagnitude (negative : Bool) {c : Nat} (hc : c < Binary64.infCode)
    (hrest : rest.EndsNumber) :
    unsigned negative (Text.ofString (Binary64.shortestMagnitude c) ++ rest) =
      .ok (.float (Binary64.ofCode negative c), rest) := by
  unfold Binary64.shortestMagnitude
  split
  · rename_i h0
    rw [h0]
    exact unsigned_fraction negative isWhole_zero isWhole_zero.digits isWhole_zero.ne_nil hrest
  · rename_i h0
    have hcode := Binary64.codeOfDecimal_shortest h0 hc
    have hd : (Binary64.shortest c).1 ≠ 0 := by
      intro hd
      rw [hd, Binary64.codeOfDecimal, if_pos rfl] at hcode
      exact h0 hcode.symm
    rw [unsigned_decimalText negative hd hrest, Binary64.ofDecimal, hcode]

theorem scalar_float (hx : x.isNaN = false) (hrest : rest.EndsNumber) :
    scalar (Text.ofString (x.text spelling) ++ rest) = .ok (.float x, rest) := by
  have hsign : Text.ofString x.sign = if x.negative then [0x2D] else [] := by
    unfold Binary64.sign
    split <;> rfl
  have heq := x.ofCode_eq
  unfold Binary64.text Binary64.render
  rw [hx, if_neg (by decide)]
  split
  · rename_i hinf
    rw [Binary64.isInf, beq_iff_eq] at hinf
    rw [hinf] at heq
    rw [Text.ofString_append, hsign]
    cases hn : x.negative with
    | true =>
      rw [hn] at heq
      rw [← heq]
      rfl
    | false =>
      rw [hn] at heq
      rw [← heq]
      rfl
  · rename_i hinf
    have hlt : x.code < Binary64.infCode := by
      rw [Binary64.isInf, beq_iff_eq] at hinf
      rw [Binary64.isNaN, decide_eq_false_iff_not] at hx
      omega
    rw [Text.ofString_append, hsign, List.append_assoc,
      scalar_of_unsigned (unsigned_shortestMagnitude _ hlt hrest), heq]

/-! ### Strings -/

theorem hexValue?_hexDigit {k : Nat} (hk : k < 16) : Text.hexValue? (Text.hexDigit k) = some k := by
  have hall : ∀ k < 16, Text.hexValue? (Text.hexDigit k) = some k := by decide
  exact hall k hk

/-- Four hexadecimal digits give their unit again. -/
theorem hexUnit?_hex (u : UInt16) : ∃ a b c d, Text.hex 4 u.toNat = [a, b, c, d] ∧
    hexUnit? a b c d = some u := by
  have hlt : u.toNat < 65536 := u.toNat_lt
  refine ⟨_, _, _, _, rfl, ?_⟩
  unfold hexUnit?
  rw [hexValue?_hexDigit (Nat.mod_lt _ (by decide)), hexValue?_hexDigit (Nat.mod_lt _ (by decide)),
    hexValue?_hexDigit (Nat.mod_lt _ (by decide)), hexValue?_hexDigit (Nat.mod_lt _ (by decide))]
  refine congrArg some (UInt16.toNat_inj.mp ?_)
  rw [UInt16.toNat_ofNat']
  show _ % 65536 = _
  simp only [Nat.pow_eq]
  omega

/-- One unit of a string is read from what is written for it. -/
theorem stringBody_quoteUnit (u : UInt16) (t : Text) :
    stringBody (quoteUnit u ++ t) = (stringBody t).map fun p => (u :: p.1, p.2) := by
  by_cases hquote : u = 0x22
  · subst hquote
    rfl
  by_cases hslash : u = 0x5C
  · subst hslash
    rfl
  by_cases hnamed : u = 0x08 ∨ u = 0x0C ∨ u = 0x0A ∨ u = 0x0D ∨ u = 0x09
  · rcases hnamed with rfl | rfl | rfl | rfl | rfl <;> rfl
  · simp only [not_or] at hnamed
    obtain ⟨h8, hC, hA, hD, h9⟩ := hnamed
    unfold quoteUnit
    rw [if_neg hquote, if_neg hslash, if_neg h8, if_neg hC, if_neg hA, if_neg hD, if_neg h9]
    split
    · obtain ⟨a, b, c, d, hhex, hunit⟩ := hexUnit?_hex u
      rw [hhex]
      show stringBody (0x5C :: 0x75 :: a :: b :: c :: d :: t) = _
      rw [stringBody, hunit]
    · rename_i hplain
      have hcontrol : ¬(decide (u < 0x20) || decide (u = 0x5C)) = true := by
        simp only [Bool.or_eq_true, decide_eq_true_eq, not_or] at hplain ⊢
        exact ⟨hplain.1, hslash⟩
      show stringBody (u :: t) = _
      rw [stringBody, if_neg hcontrol]
      · exact hquote
      · exact fun _ _ _ _ _ h => absurd h hslash
      · exact fun _ _ h => absurd h hslash

/-- A written string is read up to its closing quote. -/
theorem stringBody_quote (s rest : Text) :
    stringBody (s.flatMap quoteUnit ++ 0x22 :: rest) = .ok (s, rest) := by
  induction s with
  | nil => rfl
  | cons u s ih =>
    rw [List.flatMap_cons, List.append_assoc, stringBody_quoteUnit, ih]
    rfl

/-! ### Values -/

mutual

/-- Whether no number in the value is a NaN, and no key of an object stands twice. -/
def isProper : Json → Bool
  | .float x => !x.isNaN
  | .array l => areProper l
  | .object l => decide (l.map Prod.fst).Nodup && areProperIn l
  | _ => true

def areProper : List Json → Bool
  | [] => true
  | v :: rest => isProper v && areProper rest

def areProperIn : List (Text × Json) → Bool
  | [] => true
  | (_, v) :: rest => isProper v && areProperIn rest

end

/-- Blanks, quotes and brackets: the units that begin no word and no number. -/
def marks : List UInt16 := [0x20, 0x09, 0x0A, 0x0D, 0x22, 0x5B, 0x5D, 0x7B, 0x7D]

theorem scalar_of_mem_marks (hu : u ∈ marks) : scalar (u :: t) = .error .malformed := by
  simp only [marks, List.mem_cons, List.not_mem_nil, or_false] at hu
  rcases hu with rfl | rfl | rfl | rfl | rfl | rfl | rfl | rfl | rfl <;> rfl

/-- Words and numbers do not begin with a mark. -/
theorem exists_head_of_scalar {p : Json × Text} (h : scalar t = .ok p) :
    ∃ u l, t = u :: l ∧ u ∉ marks := by
  cases t with
  | nil => cases h
  | cons u l =>
    refine ⟨u, l, rfl, fun hu => ?_⟩
    rw [scalar_of_mem_marks hu] at h
    cases h

theorem value_of_scalar (fuel depth : Nat) {p : Json × Text} (h : scalar t = .ok p) :
    value (fuel + 1) depth t = .ok p := by
  obtain ⟨u, l, rfl, hu⟩ := exists_head_of_scalar h
  simp only [marks, List.mem_cons, List.not_mem_nil, or_false, not_or] at hu
  rw [value]
  · exact h
  · rintro _ heq
    exact hu.2.2.2.2.1 (List.cons.inj heq).1
  · rintro _ heq
    exact hu.2.2.2.2.2.1 (List.cons.inj heq).1
  · rintro _ heq
    exact hu.2.2.2.2.2.2.2.1 (List.cons.inj heq).1

theorem natAbs_lt (h : (Json.int n).hasLongInteger = false) : n.natAbs < 10 ^ Text.maxDigits := by
  rw [hasLongInteger, decide_eq_false_iff_not, Binary64.pow10_eq] at h
  exact Nat.not_le.mp h

theorem printItems_cons {v : Json} {l : List Json} (h : l ≠ []) :
    printItems (v :: l) = print v ++ 0x2C :: 0x20 :: printItems l := by
  rw [printItems]
  exact h

theorem printFields_cons {k : Text} {v : Json} {l : List (Text × Json)} (h : l ≠ []) :
    printFields ((k, v) :: l) =
      quote k ++ 0x3A :: 0x20 :: print v ++ 0x2C :: 0x20 :: printFields l := by
  rw [printFields]
  exact h

theorem skipBlanks_cons (hu : isBlank u = false) : skipBlanks (u :: t) = u :: t :=
  List.dropWhile_cons_of_neg (by simp [hu])

theorem endsNumber_cons (hu : u = 0x2C ∨ u = 0x5D ∨ u = 0x7D) : Text.EndsNumber (u :: t) := by
  rintro v hv
  cases hv
  exact hu

/-- What is written for a value begins with no blank and with no closing bracket. -/
theorem exists_head_print {v : Json} (hv : v.isProper) (hl : v.hasLongInteger = false) :
    ∃ u t, print v = u :: t ∧ isBlank u = false ∧ u ≠ 0x5D := by
  have hscalar : ∀ w p, scalar (print v ++ w) = .ok p → w = [] →
      ∃ u t, print v = u :: t ∧ isBlank u = false ∧ u ≠ 0x5D := by
    rintro w p h rfl
    rw [List.append_nil] at h
    obtain ⟨u, t, ht, hu⟩ := exists_head_of_scalar h
    simp only [marks, List.mem_cons, List.not_mem_nil, or_false, not_or] at hu
    refine ⟨u, t, ht, ?_, hu.2.2.2.2.2.2.1⟩
    simp [isBlank, hu.1, hu.2.1, hu.2.2.1, hu.2.2.2.1]
  have hnil : Text.EndsNumber [] := by
    rintro u hu
    cases hu
  cases v with
  | null => exact ⟨_, _, rfl, rfl, by decide⟩
  | bool b => cases b <;> exact ⟨_, _, rfl, rfl, by decide⟩
  | int n => exact hscalar [] _ (scalar_int (natAbs_lt hl) hnil) rfl
  | float x =>
    have hx : x.isNaN = false := by simpa [isProper] using hv
    exact hscalar [] _ (scalar_float hx hnil) rfl
  | string s => exact ⟨_, _, rfl, rfl, by decide⟩
  | array l => exact ⟨_, _, rfl, rfl, by decide⟩
  | object l => exact ⟨_, _, rfl, rfl, by decide⟩

theorem exists_head_printItems {l : List Json} (hne : l ≠ []) (hv : areProper l)
    (hl : anyLongInteger l = false) :
    ∃ u t, printItems l = u :: t ∧ isBlank u = false ∧ u ≠ 0x5D := by
  obtain ⟨v, l, rfl⟩ := List.exists_cons_of_ne_nil hne
  rw [areProper, Bool.and_eq_true] at hv
  rw [anyLongInteger, Bool.or_eq_false_iff] at hl
  obtain ⟨u, t, ht, hu⟩ := exists_head_print hv.1 hl.1
  by_cases h : l = []
  · subst h
    exact ⟨u, t, ht, hu⟩
  · exact ⟨u, _, by rw [printItems_cons h, ht, List.cons_append], hu⟩

theorem exists_head_printFields {l : List (Text × Json)} (hne : l ≠ []) :
    ∃ t, printFields l = 0x22 :: t := by
  obtain ⟨⟨k, v⟩, l, rfl⟩ := List.exists_cons_of_ne_nil hne
  by_cases h : l = []
  · subst h
    exact ⟨_, rfl⟩
  · exact ⟨_, by rw [printFields_cons h]; rfl⟩

/-- A key that is new goes to the end. -/
theorem setField_of_notMem {key : Text} {v : Json} {before : List (Text × Json)}
    (h : key ∉ before.map Prod.fst) : setField key v before = before ++ [(key, v)] := by
  induction before with
  | nil => rfl
  | cons f before ih =>
    obtain ⟨k, w⟩ := f
    rw [List.map_cons, List.mem_cons, not_or] at h
    rw [setField, if_neg (Ne.symm h.1), ih h.2]
    rfl

/-- A written key and the value after it are read, and what follows them decides how to go on. -/
theorem fields_quote {fuel depth : Nat} {key t : Text} {v : Json} {before : List (Text × Json)}
    (hv : v.isProper) (hl : v.hasLongInteger = false)
    (hvalue : value fuel depth (print v ++ t) = .ok (v, t)) :
    fields (fuel + 1) depth before (quote key ++ 0x3A :: 0x20 :: (print v ++ t)) =
      match skipBlanks t with
      | 0x7D :: r => .ok (setField key v before, r)
      | 0x2C :: r => fields fuel depth (setField key v before) (skipBlanks r)
      | _ => .error .malformed := by
  obtain ⟨u, w, hw, hblank, -⟩ := exists_head_print hv hl
  have hskip : skipBlanks (0x20 :: (print v ++ t)) = print v ++ t := by
    rw [hw, List.cons_append]
    exact skipBlanks_cons hblank
  have hcolon : skipBlanks (0x3A :: 0x20 :: (print v ++ t)) = 0x3A :: 0x20 :: (print v ++ t) := rfl
  have hread : value fuel depth (skipBlanks (0x20 :: (print v ++ t))) = .ok (v, t) := by
    rw [hskip, hvalue]
  rw [quote, List.append_assoc, List.cons_append, List.singleton_append, fields, stringBody_quote]
  simp only [hcolon]
  generalize value fuel depth (skipBlanks (0x20 :: (print v ++ t))) = r at hread ⊢
  subst hread
  rfl

mutual

/-- A written value is read back, if the fuel is twice the length of its text and the depth is that
of its nesting. -/
theorem value_print (v : Json) (fuel depth : Nat) (rest : Text) (hv : v.isProper)
    (hl : v.hasLongInteger = false) (hdepth : v.nesting ≤ depth)
    (hfuel : 2 * (print v).length ≤ fuel + 1) (hrest : rest.EndsNumber) :
    value fuel depth (print v ++ rest) = .ok (v, rest) := by
  obtain ⟨fuel, rfl⟩ : ∃ f, fuel = f + 1 := by
    obtain ⟨u, t, ht, -⟩ := exists_head_print hv hl
    rw [ht, List.length_cons] at hfuel
    exact ⟨fuel - 1, by omega⟩
  cases v with
  | null => exact value_of_scalar fuel depth rfl
  | bool b => cases b <;> exact value_of_scalar fuel depth rfl
  | int n => exact value_of_scalar fuel depth (scalar_int (natAbs_lt hl) hrest)
  | float x =>
    have hx : x.isNaN = false := by simpa [isProper] using hv
    exact value_of_scalar fuel depth (scalar_float hx hrest)
  | string s =>
    rw [print, quote, List.append_assoc, List.cons_append, List.singleton_append, value,
      stringBody_quote]
    rfl
  | array l =>
    rw [isProper] at hv
    rw [hasLongInteger] at hl
    rw [nesting] at hdepth
    rw [print, List.length_append, List.length_cons, List.length_singleton] at hfuel
    rw [print, List.append_assoc, List.cons_append, List.singleton_append, value,
      if_neg (Nat.ne_of_gt (Nat.zero_lt_of_lt hdepth))]
    by_cases hne : l = []
    · subst hne
      rfl
    · obtain ⟨u, t, ht, hblank, hclose⟩ := exists_head_printItems hne hv hl
      have hitems := items_print l fuel (depth - 1) rest hne hv hl (by omega) (by omega)
      rw [ht, List.cons_append] at hitems ⊢
      rw [skipBlanks_cons hblank]
      split
      · rename_i heq
        exact absurd (List.cons.inj heq).1 hclose
      · rw [hitems]
        rfl
  | object l =>
    rw [isProper, Bool.and_eq_true, decide_eq_true_eq] at hv
    rw [hasLongInteger] at hl
    rw [nesting] at hdepth
    rw [print, List.length_append, List.length_cons, List.length_singleton] at hfuel
    rw [print, List.append_assoc, List.cons_append, List.singleton_append, value,
      if_neg (Nat.ne_of_gt (Nat.zero_lt_of_lt hdepth))]
    by_cases hne : l = []
    · subst hne
      rfl
    · obtain ⟨t, ht⟩ := exists_head_printFields hne
      have hfields := fields_print l fuel (depth - 1) [] rest hne hv.1 hv.2 hl (by omega)
        (by omega)
      rw [ht, List.cons_append] at hfields ⊢
      rw [skipBlanks_cons rfl]
      show (fields fuel (depth - 1) [] (0x22 :: (t ++ 0x7D :: rest))).map _ = _
      rw [hfields]
      rfl

theorem items_print (l : List Json) (fuel depth : Nat) (rest : Text) (hne : l ≠ [])
    (hv : areProper l) (hl : anyLongInteger l = false) (hdepth : nestingOf l ≤ depth)
    (hfuel : 2 * ((printItems l).length + 1) ≤ fuel) :
    items fuel depth (printItems l ++ 0x5D :: rest) = .ok (l, rest) := by
  obtain ⟨fuel, rfl⟩ : ∃ f, fuel = f + 1 := ⟨fuel - 1, by omega⟩
  match l with
  | v :: l =>
    rw [areProper, Bool.and_eq_true] at hv
    rw [anyLongInteger, Bool.or_eq_false_iff] at hl
    rw [nestingOf, Nat.max_le] at hdepth
    by_cases h : l = []
    · subst h
      rw [printItems] at hfuel ⊢
      have hvalue := value_print v fuel depth (0x5D :: rest) hv.1 hl.1 hdepth.1 (by omega)
        (endsNumber_cons (by simp))
      rw [items, hvalue]
      rfl
    · obtain ⟨u, t, ht, hblank, -⟩ := exists_head_printItems h hv.2 hl.2
      rw [printItems_cons h, List.length_append, List.length_cons, List.length_cons] at hfuel
      have hvalue := value_print v fuel depth (0x2C :: 0x20 :: (printItems l ++ 0x5D :: rest)) hv.1
        hl.1 hdepth.1 (by omega) (endsNumber_cons (by simp))
      have hitems := items_print l fuel depth rest h hv.2 hl.2 hdepth.2 (by omega)
      rw [printItems_cons h, List.append_assoc, List.cons_append, List.cons_append, items, hvalue]
      rw [ht, List.cons_append] at hitems ⊢
      show (items fuel depth (skipBlanks (u :: (t ++ 0x5D :: rest)))).map _ = _
      rw [skipBlanks_cons hblank, hitems]
      rfl

theorem fields_print (l : List (Text × Json)) (fuel depth : Nat) (before : List (Text × Json))
    (rest : Text) (hne : l ≠ []) (hn : ((before ++ l).map Prod.fst).Nodup) (hv : areProperIn l)
    (hl : anyLongIntegerIn l = false) (hdepth : nestingIn l ≤ depth)
    (hfuel : 2 * ((printFields l).length + 1) ≤ fuel) :
    fields fuel depth before (printFields l ++ 0x7D :: rest) = .ok (before ++ l, rest) := by
  obtain ⟨fuel, rfl⟩ : ∃ f, fuel = f + 1 := ⟨fuel - 1, by omega⟩
  match l with
  | (k, v) :: l =>
    rw [areProperIn, Bool.and_eq_true] at hv
    rw [anyLongIntegerIn, Bool.or_eq_false_iff] at hl
    rw [nestingIn, Nat.max_le] at hdepth
    have hkey : k ∉ before.map Prod.fst := by
      rw [List.map_append, List.nodup_append] at hn
      exact fun hk => hn.2.2 k hk k (by simp) rfl
    by_cases h : l = []
    · subst h
      rw [printFields, List.length_append, List.length_cons, List.length_cons] at hfuel
      have hvalue := value_print v fuel depth (0x7D :: rest) hv.1 hl.1 hdepth.1 (by omega)
        (endsNumber_cons (by simp))
      rw [printFields, List.append_assoc, List.cons_append, List.cons_append,
        fields_quote hv.1 hl.1 hvalue, setField_of_notMem hkey]
      rfl
    · obtain ⟨t, ht⟩ := exists_head_printFields h
      rw [printFields_cons h, List.length_append, List.length_append, List.length_cons,
        List.length_cons, List.length_cons, List.length_cons] at hfuel
      have hvalue := value_print v fuel depth (0x2C :: 0x20 :: (printFields l ++ 0x7D :: rest)) hv.1
        hl.1 hdepth.1 (by omega) (endsNumber_cons (by simp))
      have hfields := fields_print l fuel depth (before ++ [(k, v)]) rest h (by simpa using hn) hv.2
        hl.2 hdepth.2 (by omega)
      rw [printFields_cons h]
      simp only [List.append_assoc, List.cons_append]
      rw [fields_quote hv.1 hl.1 hvalue, setField_of_notMem hkey]
      rw [ht, List.cons_append] at hfields ⊢
      show fields fuel depth (before ++ [(k, v)]) (skipBlanks (0x22 :: (t ++ 0x7D :: rest))) = _
      rw [skipBlanks_cons rfl, hfields, List.append_assoc, List.singleton_append]

end

end Json

end Eikonal
