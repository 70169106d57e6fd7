import PathSum.Proofs.Floating.Rounding

/-!
# Packed numbers

A number is kept as its fields, and every operation unpacks them, computes, and packs the result
again. What is unpacked always has the same form (`Canonical`), and a result of that form is not
changed by packing; only a number that is too large becomes infinite.

* `canonical_unpack`: what is unpacked has a full mantissa.
* `unpack_pack_finite`: a number with a full mantissa is kept, unless it is too large.
-/

open Float.Model Float.Model.UnpackedFloat

namespace PathSum.Floating

/-! ## Unpacking -/

/-- Finite numbers have a full mantissa and an exponent that is not too large. -/
def Canonical : UnpackedFloat → Prop
  | .finite _ m e _ => FullMantissa m e ∧ e ≤ 971
  | _ => True

/-- The number with the given fields. Below the largest exponent, which is kept for what is not
finite, all exponents but the least add a first digit to the mantissa. -/
def ofFields (s : Sign) (e : BitVec 11) (m : BitVec 52) : UnpackedFloat :=
  if e = -1#11 then if m = 0#52 then .infinity s else .notANumber
  else if e = 0#11 then
    if h : m = 0#52 then .zero s
    else .finite s m.toNat (-1074) (Nat.pos_of_ne_zero fun h' => h (BitVec.eq_of_toNat_eq h'))
  else .finite s (2 ^ 52 + m.toNat) (e.toNat - 1075) (by omega)

theorem finite_congr {s : Sign} {m m' : Nat} {e e' : Int} {h : 0 < m} {h' : 0 < m'}
    (hm : m = m') (he : e = e') : UnpackedFloat.finite s m e h = .finite s m' e' h' := by
  subst hm he
  rfl

/-- The first digit of a normal mantissa is not kept in its field. -/
theorem toNat_implicit (m : BitVec 52) : (1#1 ++ m).toNat = 2 ^ 52 + m.toNat := by
  rw [BitVec.toNat_append, ← Nat.shiftLeft_add_eq_or_of_lt m.isLt]
  rfl

/-- Unpacking looks at the three fields of a word and at nothing else. So a word that was packed is
unpacked by what its fields are. -/
theorem unpack_eq_ofFields (b : BitVec Format.binary64.numBits) :
    UnpackedFloat.unpack Format.binary64 b =
      ofFields (Sign.ofBitVec (unpackSign b)) (unpackExponent b) (unpackMantissa b) := by
  unfold UnpackedFloat.unpack ofFields
  refine ite_congr rfl (fun _ => rfl) fun _ => ?_
  refine ite_congr rfl (fun hzero => ?_) fun _ => finite_congr (toNat_implicit _) rfl
  refine dite_congr rfl (fun _ => rfl) fun _ => finite_congr rfl ?_
  rw [hzero]
  rfl

/-- **Whatever the fields are, the number is canonical.** The exponent of the field decides: the
largest is kept for what is not finite, the least leaves the mantissa as it is, and all others add
the first digit to it. -/
theorem canonical_ofFields (s : Sign) (e : BitVec 11) (m : BitVec 52) :
    Canonical (ofFields s e m) := by
  have hm : m.toNat < 2 ^ 52 := m.isLt
  have he : e.toNat < 2 ^ 11 := e.isLt
  unfold ofFields
  by_cases hlast : e = -1#11
  · rw [if_pos hlast]
    by_cases hzero : m = 0#52
    · rw [if_pos hzero]
      trivial
    · rw [if_neg hzero]
      trivial
  · have hlast' : e.toNat ≠ 2047 := fun h => hlast (BitVec.eq_of_toNat_eq h)
    rw [if_neg hlast]
    by_cases hfirst : e = 0#11
    · rw [if_pos hfirst]
      by_cases hzero : m = 0#52
      · rw [dif_pos hzero]
        trivial
      · rw [dif_neg hzero]
        -- the least exponent goes with mantissas that need not be full.
        exact ⟨⟨by omega, by decide, .inr rfl⟩, by decide⟩
    · have hfirst' : e.toNat ≠ 0 := fun h => hfirst (BitVec.eq_of_toNat_eq h)
      rw [if_neg hfirst]
      exact ⟨⟨by omega, by omega, .inl (by omega)⟩, by omega⟩

/-- So every number that is unpacked is canonical. -/
theorem canonical_unpack (a : Float.Model) : Canonical a.unpack := by
  have hfields := unpack_eq_ofFields a.toBits.toBitVec
  show Canonical (UnpackedFloat.unpack Format.binary64 a.toBits.toBitVec)
  rw [hfields]
  exact canonical_ofFields ..

/-! ## Packing -/

/-- The sign that was packed is the sign that is unpacked, whatever the other two fields are. -/
theorem ofBitVec_unpackSign (s : Sign) (e : BitVec 11) (m : BitVec 52) :
    Sign.ofBitVec (unpackSign (packComponents Format.binary64 s e m)) = s := by
  have hsign : unpackSign (packComponents Format.binary64 s e m) = s.toBitVec := by
    ext i hi
    obtain rfl : i = 0 := Nat.lt_one_iff.mp hi
    -- the last field that is appended stands lowest, so the sign is the highest bit.
    show (BitVec.extractLsb 63 63 (s.toBitVec ++ e ++ m)).getLsbD 0 = s.toBitVec.getLsbD 0
    rw [BitVec.getLsbD_extractLsb, BitVec.getLsbD_append, BitVec.getLsbD_append]
    rfl
  rw [hsign]
  cases s <;> rfl

/-- So are all three fields. -/
theorem unpack_packComponents (s : Sign) (e : BitVec 11) (m : BitVec 52) :
    UnpackedFloat.unpack Format.binary64 (packComponents Format.binary64 s e m) =
      ofFields s e m := by
  rw [unpack_eq_ofFields, ofBitVec_unpackSign, unpackExponent_packComponents,
    unpackMantissa_packComponents]

/-- A mantissa of 53 digits comes back from its field and its exponent. The field has 52 of the
digits, and the first one is put in front again because the exponent has a field that is not zero.
-/
theorem ofFields_of_normal {s : Sign} {m : Nat} {e : Int} {h : 0 < m} (full : FullMantissa m e)
    (hm : 2 ^ 52 ≤ m) (he : e ≤ 971) :
    ofFields s (BitVec.ofNat 11 (e + 1075).toNat) (BitVec.ofNat 52 m) = .finite s m e h := by
  have hlt := full.lt
  have hleast := full.least_le
  have hexponent : (BitVec.ofNat 11 (e + 1075).toNat).toNat = (e + 1075).toNat := by
    rw [BitVec.toNat_ofNat]
    omega
  have hmantissa : 2 ^ 52 + (BitVec.ofNat 52 m).toNat = m := by
    rw [BitVec.toNat_ofNat]
    omega
  -- the field is neither of the two that mean something else.
  have hlast : BitVec.ofNat 11 (e + 1075).toNat ≠ -1#11 := by
    rw [BitVec.toNat_ne, hexponent]
    show _ ≠ 2047
    omega
  have hfirst : BitVec.ofNat 11 (e + 1075).toNat ≠ 0#11 := by
    rw [BitVec.toNat_ne, hexponent]
    show _ ≠ 0
    omega
  unfold ofFields
  rw [if_neg hlast, if_neg hfirst]
  exact finite_congr hmantissa (by omega)

/-- A mantissa with fewer digits comes back with the least exponent. There the field has all the
digits, and none is put in front. -/
theorem ofFields_of_least {s : Sign} {m : Nat} {h : 0 < m} (hm : m < 2 ^ 52) :
    ofFields s 0#11 (BitVec.ofNat 52 m) = .finite s m (-1074) h := by
  have hmantissa : (BitVec.ofNat 52 m).toNat = m := by
    rw [BitVec.toNat_ofNat]
    omega
  have hne : BitVec.ofNat 52 m ≠ 0#52 := by
    rw [BitVec.toNat_ne, hmantissa]
    exact h.ne'
  unfold ofFields
  rw [if_neg (by decide), if_pos rfl, dif_neg hne]
  exact finite_congr hmantissa rfl

/-- The fields of a finite number: a mantissa of 53 digits goes without its first digit, and one
with fewer goes with the least exponent. -/
theorem pack_finite (s : Sign) {m : Nat} {e : Int} (h : 0 < m) :
    UnpackedFloat.pack Format.binary64 (.finite s m e h) =
      if 2 ^ 11 ≤ (e + 1023 + 52).toNat + 1 then packedInfinity Format.binary64 s
      else if m.log2 + 1 = 53 then
        packComponents Format.binary64 s (BitVec.ofNat 11 (e + 1023 + 52).toNat) (BitVec.ofNat 52 m)
      else packComponents Format.binary64 s 0#11 (BitVec.ofNat 52 m) := rfl

/-- **A number with a full mantissa is kept**, unless it is too large. Its sign, its exponent and
its digits come to stand in three fields, and each of them is read back. -/
theorem unpack_pack_finite {s : Sign} {m : Nat} {e : Int} {h : 0 < m} (full : FullMantissa m e) :
    (Float.Model.pack (.finite s m e h)).unpack =
      if e ≤ 971 then .finite s m e h else .infinity s := by
  have hleast := full.least_le
  have hbias : e + 1023 + 52 = e + 1075 := by omega
  show UnpackedFloat.unpack _ (UnpackedFloat.pack Format.binary64 (.finite s m e h)) = _
  rw [pack_finite, hbias]
  by_cases he : e ≤ 971
  · rw [if_pos he, if_neg (by omega)]
    by_cases hm : 2 ^ 52 ≤ m
    · have hlog : m.log2 = 52 := (Nat.log2_eq_iff (by omega)).mpr ⟨hm, full.lt⟩
      rw [if_pos (by omega), unpack_packComponents, ofFields_of_normal full hm he]
    · have hlog : m.log2 < 52 := (Nat.log2_lt (by omega)).mpr (by omega)
      obtain rfl : e = -1074 := full.full.resolve_left hm
      rw [if_neg (by omega), unpack_packComponents, ofFields_of_least (by omega)]
  · rw [if_neg he, if_pos (by omega)]
    cases s <;> rfl

end PathSum.Floating
