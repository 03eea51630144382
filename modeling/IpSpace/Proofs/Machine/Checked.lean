import IpSpace.Error

/-!
# Checked operations

The definitions of this library compute on natural numbers, which have no largest one, and on lists, in which nothing is
at a position past the end. `Checked` is a second way to compute: every operation names the width of the words it
works on, and where no such word holds the result, or a position is not in the list, there is no result but a `Fault`.

As in `IpSpace.Word`, a word is a natural number. Each operation has one lemma, which says when it gives the result of the
unbounded one. A division by a number that is written out needs no check, nor do the bitwise operations on bytes.
-/
namespace IpSpace

/-- Why an operation has no result. -/
inductive Fault where
  /-- A sum or a product is wider than the word. -/
  | overflow
  /-- More is taken from a word than it has. -/
  | underflow
  | zeroDivisor
  /-- A shift by the width of the word or more. -/
  | shift
  /-- A narrower word does not hold the value. -/
  | truncation
  /-- A position or a range is not in the list. -/
  | bounds
deriving DecidableEq

/-- A computation that stops at the first fault. -/
abbrev Checked := Except Fault

namespace Checked

variable {α β : Type} {w m n : Nat}

@[simp] theorem pure_eq (a : α) : (pure a : Checked α) = .ok a := rfl

@[simp] theorem ok_bind (a : α) (k : α → Checked β) : (Except.ok a : Checked α) >>= k = k a := rfl

@[simp] theorem map_ok (g : α → β) (a : α) : g <$> (Except.ok a : Checked α) = .ok (g a) := rfl

/-! ## Arithmetic -/

def add (w m n : Nat) : Checked Nat := if m + n < 2 ^ w then .ok (m + n) else .error .overflow

def mul (w m n : Nat) : Checked Nat := if m * n < 2 ^ w then .ok (m * n) else .error .overflow

def sub (m n : Nat) : Checked Nat := if n ≤ m then .ok (m - n) else .error .underflow

def div (m n : Nat) : Checked Nat := if n = 0 then .error .zeroDivisor else .ok (m / n)

def mod (m n : Nat) : Checked Nat := if n = 0 then .error .zeroDivisor else .ok (m % n)

/-- The bits that leave the word are lost, which is no fault. -/
def shiftLeft (w m n : Nat) : Checked Nat := if n < w then .ok ((m <<< n) % 2 ^ w) else .error .shift

def shiftRight (w m n : Nat) : Checked Nat := if n < w then .ok (m >>> n) else .error .shift

/-- The same value in a word of `w` bits. -/
def narrow (w m : Nat) : Checked Nat := if m < 2 ^ w then .ok m else .error .truncation

/-- The value as a byte. -/
def byte (m : Nat) : Checked UInt8 := UInt8.ofNat <$> narrow 8 m

def addByte (x y : UInt8) : Checked UInt8 := UInt8.ofNat <$> add 8 x.toNat y.toNat

def subByte (x y : UInt8) : Checked UInt8 := UInt8.ofNat <$> sub x.toNat y.toNat

theorem add_ok (h : m + n < 2 ^ w) : add w m n = .ok (m + n) := if_pos h

theorem mul_ok (h : m * n < 2 ^ w) : mul w m n = .ok (m * n) := if_pos h

theorem sub_ok (h : n ≤ m) : sub m n = .ok (m - n) := if_pos h

theorem div_ok (h : 0 < n) : div m n = .ok (m / n) := if_neg (Nat.ne_of_gt h)

theorem mod_ok (h : 0 < n) : mod m n = .ok (m % n) := if_neg (Nat.ne_of_gt h)

theorem shiftLeft_ok (h : n < w) (hm : m * 2 ^ n < 2 ^ w) : shiftLeft w m n = .ok (m * 2 ^ n) := by
  rw [shiftLeft, if_pos h, Nat.shiftLeft_eq, Nat.mod_eq_of_lt hm]

theorem shiftRight_ok (h : n < w) : shiftRight w m n = .ok (m / 2 ^ n) := by
  rw [shiftRight, if_pos h, Nat.shiftRight_eq_div_pow]

theorem narrow_ok (h : m < 2 ^ w) : narrow w m = .ok m := if_pos h

theorem byte_ok (h : m < 256) : byte m = .ok (UInt8.ofNat m) := by
  rw [byte, narrow_ok h]; rfl

theorem addByte_ok {x y : UInt8} (h : x.toNat + y.toNat < 256) : addByte x y = .ok (x + y) := by
  rw [addByte, add_ok h, map_ok, UInt8.ofNat_add, UInt8.ofNat_toNat, UInt8.ofNat_toNat]

theorem subByte_ok {x y : UInt8} (h : y ≤ x) : subByte x y = .ok (x - y) := by
  have hle := UInt8.le_iff_toNat_le.1 h
  rw [subByte, sub_ok hle, map_ok, UInt8.ofNat_sub hle, UInt8.ofNat_toNat, UInt8.ofNat_toNat]

example : add 8 255 1 = .error .overflow := rfl

/-! ## Positions -/

variable {xs ys : List UInt8} {i : Nat}

/-- The byte at a position. -/
def index (xs : List UInt8) (i : Nat) : Checked UInt8 := if h : i < xs.length then .ok xs[i] else .error .bounds

/-- The bytes with one of them replaced. -/
def set (xs : List UInt8) (i : Nat) (x : UInt8) : Checked (List UInt8) :=
  if i < xs.length then .ok (xs.set i x) else .error .bounds

/-- The bytes before a position. -/
def take (xs : List UInt8) (n : Nat) : Checked (List UInt8) :=
  if n ≤ xs.length then .ok (xs.take n) else .error .bounds

/-- The bytes from a position on. -/
def drop (xs : List UInt8) (n : Nat) : Checked (List UInt8) :=
  if n ≤ xs.length then .ok (xs.drop n) else .error .bounds

/-- Puts `ys` in the place of the bytes before a position, which must be as many. -/
def overwrite (xs : List UInt8) (n : Nat) (ys : List UInt8) : Checked (List UInt8) :=
  if n ≤ xs.length ∧ ys.length = n then .ok (ys ++ xs.drop n) else .error .bounds

/-- The position, if it is one of `size`. -/
def position (size i : Nat) : Checked (Fin size) := if h : i < size then .ok ⟨i, h⟩ else .error .bounds

theorem index_ok (h : i < xs.length) : index xs i = .ok xs[i] := dif_pos h

theorem set_ok (h : i < xs.length) (x : UInt8) : set xs i x = .ok (xs.set i x) := if_pos h

theorem take_ok (h : n ≤ xs.length) : take xs n = .ok (xs.take n) := if_pos h

theorem drop_ok (h : n ≤ xs.length) : drop xs n = .ok (xs.drop n) := if_pos h

theorem overwrite_ok (h : n ≤ xs.length) (hy : ys.length = n) : overwrite xs n ys = .ok (ys ++ xs.drop n) :=
  if_pos ⟨h, hy⟩

theorem position_ok {size : Nat} (h : i < size) : position size i = .ok ⟨i, h⟩ := dif_pos h

end Checked

/-! ## Refusals -/

/-- A checked computation that may also refuse its input. -/
abbrev Trial := ExceptT Error Checked

namespace Trial

variable {α β : Type}

@[simp] theorem run_pure (a : α) : (pure a : Trial α).run = .ok (.ok a) := rfl

@[simp] theorem run_throw (e : Error) : (throw e : Trial α).run = .ok (.error e) := rfl

/-- A step without a fault goes on with its result. -/
@[simp] theorem lift_ok_bind (a : α) (k : α → Trial β) :
    ((liftM (Except.ok a : Checked α) : Trial α) >>= k) = k a := rfl

@[simp] theorem run_lift_ok (a : α) : (liftM (Except.ok a : Checked α) : Trial α).run = .ok (.ok a) := rfl

/-- How the trial ends. -/
def outcome (x : Trial α) : Trial (Except Error α) := ExceptT.lift x.run

theorem outcome_bind {x : Trial α} {ending : Except Error α} (h : x.run = .ok ending)
    (k : Except Error α → Trial β) : x.outcome >>= k = k ending := by
  rw [outcome, h]; rfl

theorem run_bind_ok {x : Trial α} {a : α} (h : x.run = .ok (.ok a)) (k : α → Trial β) :
    (x >>= k).run = (k a).run := by
  show x.run >>= ExceptT.bindCont k = _
  rw [h]; rfl

theorem run_bind_error {x : Trial α} {e : Error} (h : x.run = .ok (.error e)) (k : α → Trial β) :
    (x >>= k).run = .ok (.error e) := by
  show x.run >>= ExceptT.bindCont k = _
  rw [h]; rfl

/-- Two computations go on alike from trials that end alike. -/
theorem run_bind_map {γ δ : Type} {x : Trial α} {y : Except Error β} {g : β → α} (h : x.run = .ok (y.map g))
    {k : α → Trial γ} {k' : β → Except Error δ} {g' : δ → γ} (hk : ∀ b, (k (g b)).run = .ok ((k' b).map g')) :
    (x >>= k).run = .ok ((y.bind k').map g') := by
  cases y with
  | error e => exact run_bind_error h k
  | ok b => rw [run_bind_ok h, hk]; rfl

/-- A trial behind a guard that refuses what it does not let through. -/
theorem run_guard {p : Prop} [Decidable p] {x : Trial α} {ending : Except Error α} (h : x.run = .ok ending) (e : Error) :
    (if decide p = true then x else throw e).run = .ok (if p then ending else .error e) := by
  by_cases hp : p <;> simp [hp, h]

end Trial

end IpSpace
