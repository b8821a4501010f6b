import OsPractices.Mdriver.Accepts

/-!
# Beyond the limit

A package that answers with the null pointer what it has no room for fails the
test on such a trace in an orderly way: at the first request that does not fit,
with one error and no fault.
-/

set_option autoImplicit false

namespace OsPractices.Mdriver

open Library
open Malloc (State Mapped null)

/-- What goes beyond the limit is refused, and nothing changes. -/
structure Sound.Refuses {package : Package} (sound : Sound package) : Prop where
  malloc {state : State} {spent size : Nat} {live : List Extent} :
    sound.contract.Holds state spent live → 0 < size → size < 2 ^ 31 →
    sound.contract.limit < spent + sound.contract.cost size →
    package.mmMalloc state size = .ok (null, state)
  realloc {state : State} {spent size : Nat} {front back : List Extent} {extent : Extent} :
    sound.contract.Holds state spent (front ++ extent :: back) → 0 < size → size < 2 ^ 31 →
    sound.contract.limit < spent + sound.contract.cost size →
    package.mmRealloc state extent.start size = .ok (null, state)

def TraceOp.complaint (op : TraceOp) : Message :=
  match op.type with
  | .realloc => .reallocFailed
  | _ => .mallocFailed

variable {setting : Setting} {trace : Trace} {slots : Slots} {spent : Nat} {driver : Driver}
  {sound : Sound setting.package}

theorem evalOp_refused (refuses : sound.Refuses) (opnum : Nat) {op : TraceOp}
    (follows : Follows sound trace slots spent driver) (within : spent ≤ sound.contract.limit)
    (admits : slots.Admits trace.numIds op)
    (full : sound.contract.limit < spent + sound.price op) :
    evalOp setting trace driver opnum op =
      .ok (false, mallocError trace opnum op.complaint driver) := by
  obtain ⟨book, owes, knows⟩ := follows
  have checked : checkAll setting trace driver opnum = .ok driver := checkAll_ok owes knows
  unfold evalOp
  rw [checked, ok_bind]
  unfold Slots.Admits at admits
  unfold Sound.price at full
  unfold TraceOp.complaint
  cases kind : op.type with
  | alloc =>
      simp only [kind] at admits full ⊢
      obtain ⟨named, notLive, positive, small⟩ := admits
      rw [if_neg (Nat.pos_iff_ne_zero.mp positive)] at full
      unfold evalAlloc
      rw [refuses.malloc owes.holds positive small full, call_ok, ok_bind]
      dsimp only
      rw [if_pos rfl, pure_eq_ok]
  | realloc =>
      simp only [kind] at admits full ⊢
      obtain ⟨named, usable, small⟩ := admits
      have nonzero : op.size ≠ 0 := by
        intro zero
        rw [if_pos zero] at full
        omega
      have positive := Nat.pos_iff_ne_zero.mpr nonzero
      rw [if_neg nonzero] at full
      have intact : checkIndex setting trace driver opnum op.index = .ok driver :=
        checkIndex_ok fun _ => knows.intact (fun _ member => owes.contains member) named usable
      obtain ⟨oldp, isOld, run⟩ : ∃ oldp, element driver.blocks op.index = .ok oldp ∧
          setting.package.mmRealloc driver.state oldp op.size = .ok (null, driver.state) := by
        cases slot : slots op.index with
        | stale => exact absurd slot usable
        | empty =>
            refine ⟨null, (knows.empty op.index named.1 named.2 slot).1, ?_⟩
            exact (sound.contract.reallocNull driver.state positive).trans
              (refuses.malloc owes.holds positive small full)
        | live size =>
            obtain ⟨holding, member, isIndex, _⟩ := knows.live op.index size slot
            obtain ⟨front, back, rfl⟩ := List.append_of_mem member
            have holds := owes.holds
            rw [List.map_append, List.map_cons] at holds
            refine ⟨holding.extent.start, ?_, refuses.realloc holds positive small full⟩
            rw [← isIndex]
            exact (knows.owned holding member).2.2.1
      unfold evalRealloc
      rw [intact, ok_bind, isOld, ok_bind, run, call_ok, ok_bind]
      dsimp only
      rw [if_pos ⟨rfl, nonzero⟩, pure_eq_ok]
  | free =>
      simp only [kind] at full
      omega

theorem evalLoop_refused (refuses : sound.Refuses) (opnum : Nat) {ops : List TraceOp}
    (follows : Follows sound trace slots spent driver) (within : spent ≤ sound.contract.limit)
    (conforms : slots.Conforms trace.numIds ops)
    (full : sound.contract.limit < spent + (ops.map sound.price).sum) :
    ∃ front op back later, ops = front ++ op :: back ∧
      spent + (front.map sound.price).sum ≤ sound.contract.limit ∧
      sound.contract.limit < spent + (front.map sound.price).sum + sound.price op ∧
      evalLoop setting trace driver opnum ops = .ok (false, later) ∧
      later.errors = driver.errors + 1 ∧
      later.output = (mallocError trace (opnum + front.length) op.complaint driver).output := by
  induction ops generalizing slots spent driver opnum with
  | nil =>
      rw [List.map_nil, List.sum_nil] at full
      omega
  | cons op ops ih =>
      obtain ⟨admits, rest⟩ := conforms
      cases Nat.decLe (spent + sound.price op) sound.contract.limit with
      | isTrue fits =>
          rw [List.map_cons, List.sum_cons, ← Nat.add_assoc] at full
          obtain ⟨⟨goes, after⟩, run, accepted⟩ := evalOp_accepts opnum follows admits fits
          have goesOn : goes = true := accepted.goes
          subst goesOn
          obtain ⟨front, refused, back, later, rfl, below, above, run', errors, output⟩ :=
            ih (opnum + 1) accepted.follows fits rest full
          refine ⟨op :: front, refused, back, later, rfl, ?_, ?_, ?_,
            errors.trans (congrArg (· + 1) accepted.errors), ?_⟩
          · rw [List.map_cons, List.sum_cons, ← Nat.add_assoc]
            exact below
          · rw [List.map_cons, List.sum_cons, ← Nat.add_assoc]
            exact above
          · rw [evalLoop, run, ok_bind]
            exact run'
          · have line : opnum + 1 + front.length = opnum + (op :: front).length := by
              rw [List.length_cons]
              omega
            have same : after.output = driver.output := accepted.output
            rw [output, line]
            unfold mallocError
            rw [same]
      | isFalse beyond =>
          refine ⟨[], op, ops, mallocError trace opnum op.complaint driver, rfl, within,
            Nat.lt_of_not_le beyond, ?_, rfl, rfl⟩
          rw [evalLoop, evalOp_refused refuses opnum follows within admits
            (Nat.lt_of_not_le beyond), ok_bind]
          rfl

/-- A trace that asks for more than the package can give ends at the first
request that does not fit, with one error. -/
theorem evalMmValid_refused (refuses : sound.Refuses) (mapped : Mapped driver.state)
    (conforms : trace.Conforms)
    (full : sound.contract.limit < (trace.ops.map sound.price).sum) :
    ∃ front op back later, trace.ops = front ++ op :: back ∧
      (front.map sound.price).sum ≤ sound.contract.limit ∧
      sound.contract.limit < (front.map sound.price).sum + sound.price op ∧
      evalMmValid setting trace (trace.load driver) = .ok (false, later) ∧
      later.errors = driver.errors + 1 ∧
      later.output = (mallocError trace front.length op.complaint driver).output := by
  obtain ⟨start, follows, errors, output, run⟩ := evalMmValid_starts sound mapped
  obtain ⟨front, op, back, later, split, below, above, run', errors', output'⟩ :=
    evalLoop_refused refuses 0 follows (Nat.zero_le _) conforms (by rw [Nat.zero_add]; exact full)
  rw [Nat.zero_add] at below above output'
  refine ⟨front, op, back, later, split, below, above, run.trans run',
    errors'.trans (congrArg (· + 1) errors), ?_⟩
  rw [output']
  unfold mallocError
  rw [output]

end OsPractices.Mdriver
