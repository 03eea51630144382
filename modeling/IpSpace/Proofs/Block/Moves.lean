import IpSpace.Proofs.Block.Supernet

/-!
# From block to block

A `Move` leads from a block to another one. Where it fails or finds none the block stays as it is, so any list of moves is
a run through blocks.

That every block on the way has an aligned base and a mask that fits its prefix is part of being a `Block`. What a run
adds is where the mask comes from: a step hands it on or, with `containing`, drops it (`Move.hostMask_of_apply`). So a
run keeps the mask of its first block until it drops it for good (`run_keeps_invariant`).
-/
namespace IpSpace.Block

variable {f : Family}

/-- The block at a position of the listing of sub-blocks. -/
theorem subnetAt_ok {b : Block f} {p : Nat} {s : Subnets f} (h : (b.subnets p).outcome = .ok s) (index : Nat) :
    (b.subnetAt p index).outcome = .ok (s.nth index).value.1 := by
  rw [subnetAt, Attempt.outcome_bind_ok h, Attempt.outcome_bind_ok (Attempt.outcome_lift _)]
  rfl

/-! ## Moves -/

/-- A way from a block to another one. -/
inductive Move (f : Family) where
  | supernet (prefixLength : Nat)
  | nextBlock (prefixLength : Nat)
  | previousBlock (prefixLength : Nat)
  | moved (address : Address f) (prefixLength : Nat)
  | containing (address : Address f) (prefixLength : Nat)
  | subnetAt (prefixLength index : Nat)
deriving DecidableEq

namespace Move

/-- The block that the move leads to. Past the last sub-block there is none. -/
def apply (b : Block f) : Move f → Except Error (Option (Block f))
  | supernet p => (b.supernet p).outcome.map some
  | nextBlock p => (b.nextBlock p).outcome.map some
  | previousBlock p => (b.previousBlock p).outcome.map some
  | moved a p => (b.moved a p).outcome.map some
  | containing a p => (Block.containing a p).outcome.map some
  | subnetAt p index => (b.subnetAt p index).outcome

/-- The move builds a block without regard to the one that it starts from, and succeeds. -/
def Clears : Move f → Prop
  | containing a p => ∃ b, (Block.containing a p).outcome = .ok b
  | _ => False

/-- Without a host mask only the prefix can be refused. -/
theorem clears_containing_iff {a : Address f} {p : Nat} : (containing a p).Clears ↔ p ≤ f.bits := by
  constructor
  · rintro ⟨b, hb⟩
    rw [← (ofMask_ok hb).2.1]
    exact b.prefixLength_le
  · intro hp
    exact ⟨around a p hp, by rw [containing_eq a p hp]; rfl⟩

instance : (m : Move f) → Decidable m.Clears
  | containing _ _ => decidable_of_iff _ clears_containing_iff.symm
  | supernet _ | nextBlock _ | previousBlock _ | moved _ _ | subnetAt _ _ => isFalse id

end Move

/-- The block after a move. -/
def after (b : Block f) (m : Move f) : Block f :=
  match m.apply b with
  | .ok (some c) => c
  | _ => b

/-- The block after the moves in turn. -/
def run (b : Block f) (moves : List (Move f)) : Block f := moves.foldl after b

/-! ## The host mask on the way -/

theorem hostMask_of_subnetAt {b c : Block f} {p index : Nat} (h : (b.subnetAt p index).outcome = .ok (some c)) :
    c.hostMask = b.hostMask := by
  cases hs : (b.subnets p).outcome with
  | error e =>
    rw [subnetAt, Attempt.outcome_bind_error hs] at h
    cases h
  | ok s =>
    obtain ⟨-, -, blocks, hyields, htiles⟩ := subnets_ok hs
    rw [subnetAt_ok hs, hyields.nth, Except.ok.injEq] at h
    exact (htiles.kind c (List.mem_of_getElem? h)).2

theorem Move.hostMask_of_apply {b c : Block f} {m : Move f} (h : m.apply b = .ok (some c)) :
    c.hostMask = b.hostMask ∨ m.Clears ∧ c.hostMask = .empty := by
  have hok : ∀ x : Except Error (Block f), x.map some = .ok (some c) → x = .ok c := by
    rintro (e | d) hx
    · cases hx
    · cases hx; rfl
  cases m with
  | supernet p => exact .inl (supernet_ok_iff.1 (hok _ h)).2.1
  | nextBlock p => exact .inl (ofMask_ok (hok _ h)).2.2
  | previousBlock p => exact .inl (ofMask_ok (hok _ h)).2.2
  | moved a p => exact .inl (ofMask_ok (hok _ h)).2.2
  | containing a p => exact .inr ⟨⟨c, hok _ h⟩, (ofMask_ok (hok _ h)).2.2⟩
  | subnetAt p index => exact .inl (hostMask_of_subnetAt h)

theorem hostMask_after (b : Block f) {m : Move f} (h : ¬ m.Clears) : (b.after m).hostMask = b.hostMask := by
  unfold after
  split
  · rename_i c hc
    exact (Move.hostMask_of_apply hc).resolve_right fun hclears => h hclears.1
  · rfl

theorem hostMask_after_of_clears (b : Block f) {m : Move f} (h : m.Clears) : (b.after m).hostMask = .empty := by
  cases m with
  | containing a p =>
    obtain ⟨c, hc⟩ := h
    have hafter : b.after (.containing a p) = c := by
      rw [after, Move.apply, hc]
      rfl
    rw [hafter]
    exact (ofMask_ok hc).2.2
  | supernet | nextBlock | previousBlock | moved | subnetAt => exact h.elim

theorem hostMask_run {b : Block f} {moves : List (Move f)} (h : ∀ m ∈ moves, ¬ m.Clears) :
    (b.run moves).hostMask = b.hostMask := by
  induction moves generalizing b with
  | nil => rfl
  | cons m moves ih =>
    have hrest : ∀ m ∈ moves, ¬ m.Clears := fun m hm => h m (List.mem_cons_of_mem _ hm)
    exact (ih hrest).trans (b.hostMask_after (h m List.mem_cons_self))

theorem hostMask_run_of_clears {b : Block f} {moves : List (Move f)} (h : ∃ m ∈ moves, m.Clears) :
    (b.run moves).hostMask = .empty := by
  induction moves generalizing b with
  | nil =>
    obtain ⟨m, hm, -⟩ := h
    cases hm
  | cons m moves ih =>
    by_cases hlater : ∃ m ∈ moves, m.Clears
    · exact ih hlater
    · -- so `m` is the last one, and what follows keeps the empty mask
      have hrest : ∀ c ∈ moves, ¬ c.Clears := fun c hc hclears => hlater ⟨c, hc, hclears⟩
      have hm : m.Clears := by
        obtain ⟨c, hc, hclears⟩ := h
        rcases List.mem_cons.1 hc with rfl | hc
        · exact hclears
        · exact (hrest c hc hclears).elim
      exact (hostMask_run hrest).trans (b.hostMask_after_of_clears hm)

/-! ## What holds on the way -/

/-- A mask that is not empty is one of IPv6, and leaves the first byte and the prefix of its block alone. -/
theorem bounds_of_masked {b : Block f} (h : b.hostMask.length ≠ 0) :
    f = .v6 ∧ b.hostMask.length ≤ 120 ∧ b.prefixLength + b.hostMask.length < 128 ∧
      ∃ m, b.hostMask.boundary? = some m ∧ (m.value ≠ 0xff → b.prefixLength ≤ 8 * m.index) := by
  cases hm : b.hostMask.boundary? with
  | none => exact absurd (HostMask.boundary?_eq_none_iff.1 hm) h
  | some m =>
    have hlength := b.hostMask_fits.length_add_le
    have hsum := (b.hostMask_fits m hm).1
    cases f with
    | v4 => exact absurd b.hostMask.length_v4 h
    | v6 =>
      have hbits : Family.v6.bits = 128 := rfl
      exact ⟨rfl, by omega, by omega, m, rfl, fun _ => b.hostMask_fits.le_index hm⟩

/-- Wherever moves lead from a block that was accepted, there is a block with a prefix of the family and an aligned base.
Its mask is the one of the first block, or from a successful `containing` on the empty one, and goes with the prefix. -/
theorem run_keeps_invariant {a : Address f} {p n : Nat} {b : Block f} (hb : (of a p n).outcome = .ok b)
    (moves : List (Move f)) :
    ∃ c, b.run moves = c ∧ c.prefixLength ≤ f.bits ∧ c.base.clearAfter c.prefixLength = c.base ∧
      b.hostMask.length = n ∧
      ((∀ m ∈ moves, ¬ m.Clears) → c.hostMask = b.hostMask) ∧
      ((∃ m ∈ moves, m.Clears) → c.hostMask = .empty) ∧
      (c.hostMask.length ≠ 0 → f = .v6 ∧ c.hostMask.length ≤ 120 ∧ c.prefixLength + c.hostMask.length < 128 ∧
        (∃ m, c.hostMask.boundary? = some m ∧ (m.value ≠ 0xff → c.prefixLength ≤ 8 * m.index)) ∧
        c.hostMask.Permits c.base) := by
  refine ⟨b.run moves, rfl, (b.run moves).prefixLength_le, (b.run moves).base_aligned, of_ok hb, hostMask_run,
    hostMask_run_of_clears, fun hmasked => ?_⟩
  obtain ⟨hfamily, hlength, hsum, hboundary⟩ := bounds_of_masked hmasked
  exact ⟨hfamily, hlength, hsum, hboundary, (b.run moves).base_permits⟩

/-- Moves keep a mask of 60 bits up to the longest prefix that goes with it, past one that fails, and one that succeeds
drops it. -/
theorem run_keeps_invariant_until_cleared :
    ∃ b : Block .v6, (of (.ofNat .v6 0x20010db8000000000000000000000000) 56 60).outcome = .ok b ∧
      ∃ c d : Block .v6, b.run [.nextBlock 56, .containing .zero 129, .subnetAt 64 3] = c ∧
        c.base = .ofNat .v6 0x20010db8000001030000000000000000 ∧ c.prefixLength = 64 ∧ c.hostMask = b.hostMask ∧
        c.hostMask.length = 60 ∧ c.hostMask.Permits c.base ∧
        b.run [.nextBlock 56, .containing .zero 128, .supernet 64] = d ∧ d.hostMask = .empty := by
  obtain ⟨b, hb, hbase, hprefix⟩ : ∃ b : Block .v6,
      (of (.ofNat .v6 0x20010db8000000000000000000000000) 56 60).outcome = .ok b ∧
      (b.run [.nextBlock 56, .containing .zero 129, .subnetAt 64 3]).base =
        .ofNat .v6 0x20010db8000001030000000000000000 ∧
      (b.run [.nextBlock 56, .containing .zero 129, .subnetAt 64 3]).prefixLength = 64 := by
    refine ⟨⟨.ofNat .v6 0x20010db8000000000000000000000000, 56, ⟨60, by decide⟩, by decide, by decide +kernel, ?_⟩,
      ?_, ?_, ?_⟩ <;> decide +kernel
  obtain ⟨c, hc, -, -, hlength, hkept, -, hmasked⟩ := run_keeps_invariant hb
    [.nextBlock 56, .containing .zero 129, .subnetAt 64 3]
  obtain ⟨d, hd, -, -, -, -, hcleared, -⟩ := run_keeps_invariant hb
    [.nextBlock 56, .containing .zero 128, .supernet 64]
  rw [hc] at hbase hprefix
  have hmask := hkept (by decide)
  rw [← hmask] at hlength
  exact ⟨b, hb, c, d, hc, hbase, hprefix, hmask, hlength, (hmasked (by omega)).2.2.2.2, hd, hcleared (by decide)⟩

end IpSpace.Block
