import IpSpace.HostMask.Jump
import IpSpace.Proofs.HostMask.Step
import IpSpace.Proofs.Machine.Bytes
import IpSpace.Proofs.Machine.Digit
import Mathlib.Algebra.Ring.Nat

/-!
# Host masks with checked operations

Here a host mask is its bytes, most significant first, and its length is counted from them. Each function is given for
any bytes; its lemma is about the bytes of a mask.
-/
namespace IpSpace

variable {f : Family}

theorem HostMask.octets_of_boundary? {m : HostMask f} {b : Boundary f} (h : m.boundary? = some b) :
    m.octets = List.replicate b.index 0 ++ b.value :: List.replicate (f.bytes - (b.index + 1)) 0xff := by
  rw [octets, fill_of_boundary? h]; simp

theorem HostMask.octets_of_boundary?_none {m : HostMask f} (h : m.boundary? = none) :
    m.octets = List.replicate f.bytes 0 := by
  rw [octets, fill_of_boundary?_none h, List.reverse_replicate]

@[simp] theorem HostMask.length_octets (m : HostMask f) : m.octets.length = f.bytes := by
  rw [octets, List.length_reverse, length_fill]

namespace Machine

/-! ## Building a mask -/

/-- Masks `remaining` bits in bytes given least significant first. Models the loop of `HostMask.new`. -/
def fill (remaining : Nat) : List UInt8 → Checked (List UInt8)
  | [] => return []
  | _ :: bytes => do
    if remaining < 8 then return (← leading remaining) :: bytes
    else
      let remaining ← Checked.sub remaining 8
      return 0xff :: (← fill remaining bytes)

/-- The bytes of the mask of `length` bits. Models `HostMask.new`. -/
def newMask (f : Family) (length : Nat) : Trial (List UInt8) := do
  if f.longestHostMask < length then throw .badMaskLength
  else
    let bytes ← fill length (List.replicate f.bytes 0)
    return bytes.reverse

theorem fill_eq (remaining width : Nat) :
    fill remaining (List.replicate width 0) = .ok (HostMask.fill width remaining) := by
  induction width generalizing remaining with
  | zero => rfl
  | succ width ih =>
    rw [List.replicate_succ, fill, HostMask.fill]
    split
    · rename_i hlt
      rw [leading_eq hlt, Nat.sub_eq_zero_of_le (Nat.le_of_lt hlt), HostMask.fill_zero]; rfl
    · rename_i hge
      rw [Checked.sub_ok (Nat.not_lt.1 hge), Checked.ok_bind, ih, leading_of_le (Nat.not_lt.1 hge)]; rfl

theorem newMask_eq (f : Family) (length : Nat) :
    (newMask f length).run = .ok ((HostMask.of f length).map HostMask.octets) := by
  unfold newMask HostMask.of
  split
  · rename_i hlong
    rw [dif_neg (Nat.not_le.2 hlong)]; rfl
  · rename_i hshort
    rw [dif_pos (Nat.not_lt.1 hshort), fill_eq, Trial.lift_ok_bind]; rfl

/-! ## Its length -/

/-- How many bits of the byte are set. Models `count_ones`. -/
def ones (byte : UInt8) : Nat := (List.range 8).countP byte.toNat.testBit

/-- How many bits of the mask are set. Models `HostMask.size`. -/
def maskSize (mask : List UInt8) : Checked Nat :=
  mask.foldlM (fun total byte => do Checked.add 8 total (← Checked.narrow 8 (ones byte))) 0

theorem ones_leading {n : Nat} (h : n ≤ 8) : ones (IpSpace.leading n) = n := by
  have hones : ∀ k : Fin 9, ones (IpSpace.leading k) = k := by decide
  exact hones ⟨n, by omega⟩

/-- The sum is exact if the whole of it is a byte. -/
theorem foldlM_ones (mask : List UInt8) {total : Nat} (h : total + (mask.map ones).sum < 256) :
    mask.foldlM (fun total byte => do Checked.add 8 total (← Checked.narrow 8 (ones byte))) total =
      (.ok (total + (mask.map ones).sum) : Checked Nat) := by
  induction mask generalizing total with
  | nil => rfl
  | cons byte mask ih =>
    rw [List.map_cons, List.sum_cons] at h ⊢
    rw [List.foldlM_cons, Checked.narrow_ok (by omega), Checked.ok_bind, Checked.add_ok (by omega), Checked.ok_bind,
      ih (by omega), Nat.add_assoc]

theorem sum_ones (m : HostMask f) : (m.octets.map ones).sum = m.length := by
  have hzero : ones 0 = 0 := by decide
  have hwhole : ones 0xff = 8 := by decide
  cases hb : m.boundary? with
  | none => rw [HostMask.octets_of_boundary?_none hb, HostMask.boundary?_eq_none_iff.1 hb]; simp [hzero]
  | some b =>
    obtain ⟨r, -, hr8, hv, -, hlen⟩ := HostMask.exists_of_boundary? hb
    have hi := b.index.isLt
    rw [HostMask.octets_of_boundary? hb, hv]
    simp [hzero, hwhole, ones_leading hr8]
    rw [Family.bits] at hlen; omega

theorem maskSize_eq (m : HostMask f) : maskSize m.octets = .ok m.length := by
  have hbits := Nat.le_trans m.length_le f.longestHostMask_le_bits
  have hbytes := f.bytes_le
  rw [Family.bits] at hbits
  rw [maskSize, foldlM_ones _ (by rw [sum_ones]; omega), sum_ones, Nat.zero_add]

/-! ## The boundary -/

/-- Where the mask begins. Models `HostMask.boundary_byte`. -/
def boundary? (f : Family) (mask : List UInt8) : Checked (Option (Boundary f)) := do
  let bits ← maskSize mask
  if bits = 0 then return none
  else
    let wholes := (← Checked.sub bits 1) / 8
    let index ← Checked.position f.bytes (← Checked.sub (← Checked.sub f.bytes 1) wholes)
    return some ⟨← Checked.index mask index, index⟩

/-- The largest value that the free bits of the byte can hold. Models `BoundaryByte.max`. -/
def largest (b : Boundary f) : Checked UInt8 := Checked.subByte 0xff b.value

/-- Whether the address leaves the bits of the mask clear. Models `HostMask.permits`. -/
def permits (mask : List UInt8) (a : Address f) : Checked Bool := do
  match ← boundary? f mask with
  | none => return true
  | some b =>
    if (← Checked.index a.octets b.index) ≤ (← largest b) then
      let below ← Checked.drop a.octets (← Checked.add 64 b.index 1)
      return below.all (· == 0)
    else return false

theorem boundary?_eq (m : HostMask f) : boundary? f m.octets = .ok m.boundary? := by
  rw [boundary?, maskSize_eq, Checked.ok_bind]
  cases hb : m.boundary? with
  | none => rw [if_pos (HostMask.boundary?_eq_none_iff.1 hb)]; rfl
  | some b =>
    obtain ⟨r, hr1, hr8, -, -, hlen⟩ := HostMask.exists_of_boundary? hb
    have hi := b.index.isLt
    rw [Family.bits] at hlen
    have hindex : f.bytes - 1 - (m.length - 1) / 8 = b.index := by omega
    have hvalue : Checked.index m.octets b.index = .ok b.value := by
      have h : b.index.val < m.octets.length := by rw [m.length_octets]; exact hi
      rw [Checked.index_ok h]
      simp [HostMask.octets_of_boundary? hb]
    rw [if_neg (by omega), Checked.sub_ok (by omega), Checked.ok_bind, Checked.sub_ok f.bytes_pos, Checked.ok_bind,
      Checked.sub_ok (by omega), Checked.ok_bind, hindex, Checked.position_ok hi, Checked.ok_bind, Fin.eta, hvalue]
    rfl

/-- A byte is at most 255. -/
theorem complement_ok (byte : UInt8) : Checked.subByte 0xff byte = .ok (0xff - byte) :=
  Checked.subByte_ok (UInt8.le_iff_toNat_le.2 (Nat.le_of_lt_succ byte.toNat_lt))

theorem largest_eq (b : Boundary f) : largest b = .ok b.max := complement_ok b.value

theorem index_octet (a : Address f) (i : Fin f.bytes) : Checked.index a.octets i = .ok (a.octet i) :=
  Checked.index_ok (a.lt_length_octets i)

theorem permits_eq (m : HostMask f) (a : Address f) : permits m.octets a = .ok (decide (m.Permits a)) := by
  rw [permits, boundary?_eq, Checked.ok_bind]
  cases hb : m.boundary? with
  | none => simp [HostMask.permits_of_boundary?_none hb]
  | some b =>
    have hi := b.index.isLt
    have hbytes := f.bytes_le
    have hmodel : m.Permits a ↔ a.octet b.index ≤ b.max ∧ ∀ byte ∈ a.octets.drop (b.index + 1), byte = 0 := by
      simp [HostMask.Permits, hb]
    simp only [index_octet, largest_eq, Checked.ok_bind, Checked.add_ok (show b.index.val + 1 < 2 ^ 64 by omega),
      Checked.drop_ok (show b.index.val + 1 ≤ a.octets.length from a.lt_length_octets b.index), hmodel]
    split
    · rename_i hle
      refine congrArg Except.ok (Bool.eq_iff_iff.2 ?_)
      simp [hle]
    · rename_i hgt
      simp [hgt]

/-! ## One step -/

/-- What a byte that is used up is reset to. -/
def reset : Direction → UInt8 → Checked UInt8
  | .up, _ => return 0
  | .down, mask => Checked.subByte 0xff mask

/-- The byte that takes the step. -/
def take : Direction → UInt8 → Checked UInt8
  | .up, byte => Checked.addByte byte 1
  | .down, byte => Checked.subByte byte 1

/-- One step in bytes given least significant first, beside the bytes of the mask. Models the loops of
`HostMask.next_address` and `HostMask.previous_address`. -/
def scan (d : Direction) : List UInt8 → List UInt8 → Checked (Option (List UInt8))
  | mask :: masks, byte :: bytes => do
    if mask = 0xff then
      if byte = 0 then return (← scan d masks bytes).map (byte :: ·) else return none
    else if d.UsedUp mask byte then
      let byte ← reset d mask
      return (← scan d masks bytes).map (byte :: ·)
    else return some ((← take d byte) :: bytes)
  | _, _ => return none

/-- The address one step away in the free bits. Models `HostMask.next_address` and `HostMask.previous_address`. -/
def step (d : Direction) (mask : List UInt8) (a : Address f) : Trial (Address f) := do
  match ← scan d mask.reverse a.octets.reverse with
  | some bytes => address bytes.reverse
  | none => throw .addressOutOfRange

theorem reset_eq (d : Direction) (mask : UInt8) : reset d mask = .ok (d.reset mask) := by
  cases d with
  | up => rfl
  | down => exact complement_ok mask

/-- A byte that is not used up has room for the step. -/
theorem take_eq (d : Direction) {mask byte : UInt8} (h : ¬ d.UsedUp mask byte) : take d byte = .ok (d.take byte) := by
  have hlt := byte.toNat_lt
  cases d with
  | up =>
    have hroom : byte.toNat ≠ 0xff := fun hfull => h (by
      rw [Direction.UsedUp, show byte = 0xff from UInt8.toNat_inj.1 hfull]
      exact UInt8.neg_one_or)
    exact Checked.addByte_ok (show byte.toNat + 1 < 256 by omega)
  | down =>
    have hroom : byte.toNat ≠ 0 := fun hzero => h (UInt8.toNat_inj.1 hzero)
    exact Checked.subByte_ok (UInt8.le_iff_toNat_le.2 (Nat.pos_of_ne_zero hroom))

theorem scan_eq (d : Direction) (masks bytes : List UInt8) : scan d masks bytes = .ok (d.scan masks bytes) := by
  induction masks generalizing bytes with
  | nil => rfl
  | cons mask masks ih =>
    cases bytes with
    | nil => rfl
    | cons byte bytes =>
      simp only [scan, Direction.scan, ih, reset_eq, Checked.ok_bind, Checked.pure_eq]
      split
      · split <;> rfl
      · split
        · rfl
        · rename_i hroom
          rw [take_eq d hroom]; rfl

theorem step_eq (d : Direction) (m : HostMask f) (a : Address f) : (step d m.octets a).run = .ok (m.step d a) := by
  have hmask : m.octets.reverse = HostMask.fill f.bytes m.length := List.reverse_reverse _
  rw [step, scan_eq, hmask, Trial.lift_ok_bind]
  unfold HostMask.step
  split
  · rename_i bytes hbytes
    split
    · rename_i bytes' hbytes'
      cases hbytes.symm.trans hbytes'
      rw [address_ok ⟨bytes.reverse, _⟩ rfl]; rfl
    · rename_i hnone
      cases hbytes.symm.trans hnone
  · rename_i hnone
    split
    · rename_i bytes hbytes
      cases hnone.symm.trans hbytes
    · rfl

/-! ## Many steps at once -/

/-- The address with the given bytes above the boundary, the given one there and zeros below it. Models `assemble`. -/
def assemble (above : List UInt8) (value : UInt8) : Checked (Address f) := do
  let octets ← Checked.overwrite (List.replicate f.bytes 0) above.length above
  address (← Checked.set octets above.length value)

/-- Moves the free bits of `a`: without a mask by `plain`, else the digit in the boundary byte by `digit` and the bytes
above it by what `digit` passes on. -/
def jump (plain : Address f → Nat → Option (Address f)) (digit : UInt8 → UInt8 → Nat → Checked (Option (Nat × UInt8)))
    (bytes : List UInt8 → Nat → Checked (Option (List UInt8))) (mask : List UInt8) (a : Address f) (count : Nat) :
    Trial (Address f) := do
  match ← boundary? f mask with
  | none => (plain a count).elim (throw .addressOutOfRange) pure
  | some b =>
    if b.index.val = 0 then throw .badMaskLength
    else if ← permits mask a then
      let byte ← Checked.index a.octets b.index
      match ← digit b.value byte count with
      | none => throw .addressOutOfRange
      | some (passed, value) =>
        let above ← Checked.take a.octets b.index
        match ← bytes above passed with
        | none => throw .addressOutOfRange
        | some above => assemble above value
    else throw .addressOutOfRange

/-- The address `count` up in the free bits. Models `HostMask.increment`. -/
def jumpUp : List UInt8 → Address f → Nat → Trial (Address f) := jump Address.add? digitAdd bytesAdd

/-- The address `count` down in the free bits. Models `HostMask.decrement`. -/
def jumpDown : List UInt8 → Address f → Nat → Trial (Address f) := jump Address.sub? digitSub bytesSub

theorem assemble_eq {above : List UInt8} (h : above.length < f.bytes) (value : UInt8) :
    (assemble above value : Checked (Address f)) = .ok (.startingWith (above ++ [value])) := by
  have hrest : f.bytes - above.length = f.bytes - (above.length + 1) + 1 := by omega
  rw [assemble, Checked.overwrite_ok (by rw [List.length_replicate]; exact Nat.le_of_lt h) rfl, Checked.ok_bind,
    Checked.set_ok (by simp; omega), Checked.ok_bind, List.set_append_right _ _ (Nat.le_refl _), Nat.sub_self,
    List.drop_replicate, hrest, List.replicate_succ]
  exact address_ok _ (by rw [Address.octets_startingWith (by simp; omega)]; simp)

/-- A jump has no fault if its parts have none, and the bytes above the boundary stay as many as they are. -/
theorem jump_eq {plain : Address f → Nat → Option (Address f)}
    {digit : UInt8 → UInt8 → Nat → Checked (Option (Nat × UInt8))} {digit' : UInt8 → UInt8 → Nat → Option (Nat × UInt8)}
    {bytes : List UInt8 → Nat → Checked (Option (List UInt8))} {bytes' : List UInt8 → Nat → Option (List UInt8)}
    {count : Nat} (hdigit : ∀ mask value, digit mask value count = .ok (digit' mask value count))
    (hbytes : ∀ xs n, bytes xs n = .ok (bytes' xs n))
    (hlength : ∀ xs n ys, bytes' xs n = some ys → ys.length = xs.length) (m : HostMask f) (a : Address f) :
    (jump plain digit bytes m.octets a count).run =
      .ok (match m.boundary? with
        | none => (plain a count).elim (.error .addressOutOfRange) .ok
        | some b => HostMask.move digit' bytes' m b a count) := by
  rw [jump, boundary?_eq, Trial.lift_ok_bind]
  cases hb : m.boundary? with
  | none => cases hp : plain a count <;> rfl
  | some b =>
    have hi := b.index.isLt
    simp only [HostMask.move]
    split
    · rfl
    · rw [permits_eq, Trial.lift_ok_bind]
      by_cases hp : m.Permits a
      · have htake : Checked.take a.octets b.index = .ok (a.octets.take b.index) :=
          Checked.take_ok (Nat.le_of_lt (a.lt_length_octets b.index))
        simp only [hp, decide_true, if_true, index_octet, hdigit, hbytes, htake, Trial.lift_ok_bind]
        cases hd : digit' b.value (a.octet b.index) count with
        | none => rfl
        | some out =>
          obtain ⟨passed, value⟩ := out
          simp only
          cases hb : bytes' (a.octets.take b.index) passed with
          | none => rfl
          | some above =>
            have habove := hlength _ _ _ hb
            rw [a.length_take] at habove
            simp only [assemble_eq (show above.length < f.bytes by omega)]
            rfl
      · simp [hp]

theorem jumpUp_eq (m : HostMask f) (a : Address f) (count : Nat) :
    (jumpUp m.octets a count).run = .ok (m.add a count) := by
  refine (jump_eq (fun mask value => digitAdd_eq mask value count) bytesAdd_eq (fun xs n ys h => ?_) m a).trans ?_
  · rw [BigEndian.add?_eq, Option.ite_none_right_eq_some] at h
    rw [← Option.some.inj h.2, BigEndian.length_ofNat]
  · rfl

theorem jumpDown_eq (m : HostMask f) (a : Address f) {count : Nat} (h : count < 2 ^ Word.bits) :
    (jumpDown m.octets a count).run = .ok (m.sub a count) := by
  refine (jump_eq (fun mask value => digitSub_eq mask value h) bytesSub_eq (fun xs n ys h => ?_) m a).trans ?_
  · rw [BigEndian.sub?_eq, Option.ite_none_right_eq_some] at h
    rw [← Option.some.inj h.2, BigEndian.length_ofNat]
  · rfl

end Machine

end IpSpace
