import IpSpace.Proofs.Address.Rounding

/-!
# The bytes of an address by position

Around a position an address falls into the bytes above, the byte there and the bytes below (`octets_eq`), and its number
falls in the same way (`toNat_eq`): the byte at position `i` counts in units of `256 ^ (f.bytes - 1 - i)`. Replacing a
byte is told by both readings:
* `octet_of_setOctet`: that byte is the new one, and every other byte is as it was,
* `toNat_of_setOctet`: the number moves by the difference of the two bytes, in those units.

`acts_as_number` sums up how far the bytes can be read as a number: order, conversion, partial sums and differences, and
the replacement of a byte.
-/
namespace IpSpace.Address

variable {f : Family}

theorem lt_length_octets (a : Address f) (i : Fin f.bytes) : i.val < a.octets.length := by
  rw [a.length_octets]; exact i.isLt

theorem drop_octets (a : Address f) (i : Fin f.bytes) : a.octets.drop i = a.octet i :: a.octets.drop (i + 1) :=
  List.drop_eq_getElem_cons (a.lt_length_octets i)

/-- An address is its bytes above a position, the byte there, and those below. -/
theorem octets_eq (a : Address f) (i : Fin f.bytes) :
    a.octets = a.octets.take i ++ a.octet i :: a.octets.drop (i + 1) := by
  rw [← a.drop_octets i, List.take_append_drop]

theorem toNat_eq (a : Address f) (i : Fin f.bytes) :
    a.toNat = (BigEndian.toNat (a.octets.take i) * 256 + (a.octet i).toNat) * 256 ^ (f.bytes - 1 - i) +
      BigEndian.toNat (a.octets.drop (i + 1)) := by
  have hlen : (a.octets.drop (i + 1)).length = f.bytes - 1 - i := by
    rw [List.length_drop, a.length_octets]; omega
  have h := congrArg BigEndian.toNat (a.octets_eq i)
  rw [BigEndian.toNat_append, BigEndian.toNat_cons, List.length_cons, hlen, Nat.pow_succ] at h
  rw [toNat, h, Nat.add_mul, Nat.mul_assoc, Nat.mul_comm 256, Nat.add_assoc]

theorem length_take (a : Address f) (i : Fin f.bytes) : (a.octets.take i).length = i :=
  List.length_take_of_le (Nat.le_of_lt (a.lt_length_octets i))

theorem toNat_take_lt (a : Address f) (i : Fin f.bytes) : BigEndian.toNat (a.octets.take i) < 256 ^ i.val := by
  have h := BigEndian.toNat_lt (a.octets.take i)
  rwa [a.length_take] at h

/-! ## Replacing a byte -/

section

variable {a b : Address f} {value : UInt8}

theorem getElem?_octets (a : Address f) (i : Fin f.bytes) : a.octets[i.val]? = some (a.octet i) :=
  List.getElem?_eq_getElem (a.lt_length_octets i)

theorem setOctet_ok_iff {i : Fin f.bytes} : a.setOctet i value = .ok b ↔ b.octets = a.octets.set i value := by
  rw [setOctet, if_pos i.isLt, Except.ok.injEq, Address.ext_iff]
  exact eq_comm

theorem setOctet_refused_iff {index : Nat} : a.setOctet index value = .error .addressOutOfRange ↔ f.bytes ≤ index := by
  unfold setOctet
  split <;> simp <;> omega

theorem octet_of_setOctet {i : Fin f.bytes} (h : a.setOctet i value = .ok b) (j : Fin f.bytes) :
    b.octet j = if j = i then value else a.octet j := by
  rw [← Option.some.injEq, ← b.getElem?_octets j, setOctet_ok_iff.1 h]
  rcases eq_or_ne j i with rfl | hji
  · rw [if_pos rfl, List.getElem?_set_self (a.lt_length_octets j)]
  · rw [if_neg hji, List.getElem?_set_ne (fun hij => hji (Fin.ext hij.symm)), a.getElem?_octets j]

/-- The bytes above and below are the same in both numbers. -/
theorem toNat_of_setOctet {i : Fin f.bytes} (h : a.setOctet i value = .ok b) :
    b.toNat + (a.octet i).toNat * 256 ^ (f.bytes - 1 - i) = a.toNat + value.toNat * 256 ^ (f.bytes - 1 - i) := by
  have hbyte : b.octet i = value := by rw [octet_of_setOctet h, if_pos rfl]
  have hoctets := setOctet_ok_iff.1 h
  have habove : b.octets.take i = a.octets.take i := by rw [hoctets, List.take_set_of_le (Nat.le_refl _)]
  have hbelow : b.octets.drop (i + 1) = a.octets.drop (i + 1) := by
    rw [hoctets, List.drop_set_of_lt (Nat.lt_succ_self _)]
  rw [a.toNat_eq i, b.toNat_eq i, habove, hbelow, hbyte, Nat.add_mul, Nat.add_mul]
  omega

end

/-! ## Bytes and number -/

/-- The bytes of an address act as the number below `2 ^ f.bits` that they spell: they are compared as it is, every such
number is spelled in one way, sums and differences are those of numbers wherever one exists, and a byte that is replaced
moves the number by its weight and leaves the other bytes alone. -/
theorem acts_as_number (f : Family) :
    (∀ a b : Address f, compare a b = compare a.toNat b.toNat ∧ (a < b ↔ a.toNat < b.toNat) ∧
      (a ≤ b ↔ a.toNat ≤ b.toNat) ∧ (a = b ↔ a.toNat = b.toNat)) ∧
    (∀ a : Address f, a.toNat < 2 ^ f.bits ∧ ofNat f a.toNat = a) ∧
    (∀ number < 2 ^ f.bits, (ofNat f number).toNat = number) ∧
    (∀ (a : Address f) (count : Nat),
      ((∃ b, a.add? count = some b) ↔ a.toNat + count < 2 ^ f.bits) ∧
      (∀ b, a.add? count = some b → b.toNat = a.toNat + count) ∧
      ((∃ b, a.sub? count = some b) ↔ count ≤ a.toNat) ∧
      ∀ b, a.sub? count = some b → b.toNat = a.toNat - count) ∧
    ∀ (a : Address f) (value : UInt8),
      (∀ i : Fin f.bytes, ∃ b, a.setOctet i value = .ok b ∧
        (b.toNat : Int) - a.toNat =
          ((value.toNat : Int) - (a.octet i).toNat) * (256 ^ (f.bytes - 1 - i) : Nat) ∧
        ∀ j, b.octet j = if j = i then value else a.octet j) ∧
      ∀ index, a.setOctet index value = .error .addressOutOfRange ↔ f.bytes ≤ index := by
  refine ⟨fun a b => ⟨(compare_toNat a b).symm, lt_iff_toNat_lt, le_iff_toNat_le, toNat_inj.symm⟩,
    fun a => ⟨a.toNat_lt, a.ofNat_toNat⟩, fun _ => toNat_ofNat_of_lt, fun a count => ?_,
    fun a value => ⟨fun i => ?_, fun _ => setOctet_refused_iff⟩⟩
  · refine ⟨exists_add?_iff, fun b => add?_eq_some_iff.1, exists_sub?_iff, fun b hsub => ?_⟩
    exact Nat.eq_sub_of_add_eq (sub?_eq_some_iff.1 hsub)
  · obtain ⟨b, hb⟩ : ∃ b, a.setOctet i value = .ok b := ⟨_, if_pos i.isLt⟩
    have hmoved := toNat_of_setOctet hb
    refine ⟨b, hb, ?_, octet_of_setOctet hb⟩
    generalize 256 ^ (f.bytes - 1 - i.val) = weight at hmoved ⊢
    rw [Int.sub_mul]
    omega

/-- A carry over two bytes and the way back: 10.1.0.0 comes after 10.0.255.255. -/
theorem acts_as_number_carry :
    0x0a00ffff < 2 ^ Family.v4.bits ∧ (ofNat .v4 0x0a00ffff).toNat = 0x0a00ffff ∧
    (ofNat .v4 0x0a00ffff).add? 1 = some (ofNat .v4 0x0a010000) ∧
    (ofNat .v4 0x0a010000).toNat = (ofNat .v4 0x0a00ffff).toNat + 1 ∧
    (ofNat .v4 0x0a010000).sub? 1 = some (ofNat .v4 0x0a00ffff) ∧
    (ofNat .v4 0x0a00ffff).toNat = (ofNat .v4 0x0a010000).toNat - 1 := by
  have hfits : 0x0a00ffff < 2 ^ Family.v4.bits := by decide
  have hadd : (ofNat .v4 0x0a00ffff).add? 1 = some (ofNat .v4 0x0a010000) := by decide +kernel
  have hsub : (ofNat .v4 0x0a010000).sub? 1 = some (ofNat .v4 0x0a00ffff) := by decide +kernel
  obtain ⟨-, -, hnumber, hpartial, -⟩ := acts_as_number .v4
  exact ⟨hfits, hnumber _ hfits, hadd, (hpartial _ _).2.1 _ hadd, hsub, (hpartial _ _).2.2.2 _ hsub⟩

end IpSpace.Address
