import OsPractices.Malloc.Safety

/-!
# Double free

What a second `free` of a pointer finds. The first one, and every later `free`
of other pointers, leaves a status before the pointer that `free` ignores, in
whatever order the blocks around it are merged.
-/

set_option autoImplicit false

namespace OsPractices.Malloc

open Library

variable {state : State} {layout : Layout} {held : Nat → Prop} {off : Nat}

/-- One `free` after another. -/
def freeAll (state : State) : List (Option Nat) → Except Fault State
  | [] => .ok state
  | ptr :: ptrs => do
      let state ← Malloc.free state (state.address ptr)
      freeAll state ptrs

/-- `free` of a pointer may be repeated after any calls of `free` on pointers
that were live before it: the last one leaves all of the state as it is. -/
def Session.Repeatable (session : Session) (off : Nat) : Prop :=
  ∀ ptrs : List (Option Nat), (∀ ptr ∈ ptrs, ∀ other ∈ ptr, session.Holds other) →
    ∃ freed last, Malloc.free session.state (session.state.heap + off) = .ok freed ∧
      freeAll freed ptrs = .ok last ∧ Malloc.free last (session.state.heap + off) = .ok last

/-- While the client only calls `free`, each of its pointers is live or cleared. -/
structure Freeing (held : Nat → Prop) (state : State) (layout : Layout) : Prop where
  represents : Represents state layout none
  valid : layout.Valid 16
  pointers : ∀ off, held off →
    Cleared layout.blocks state off ∨ ∃ block ∈ liveOf layout.blocks, block.off = off

/-- What calls of `free` lead to. -/
structure Frees (held : Nat → Prop) (state : State) (layout : Layout) (state' : State)
    (layout' : Layout) : Prop where
  freeing : Freeing held state' layout'
  heap : state'.heap = state.heap
  clears : Clears layout.blocks state layout'.blocks state'

theorem Frees.trans {state' state'' : State} {layout' layout'' : Layout}
    (first : Frees held state layout state' layout')
    (second : Frees held state' layout' state'' layout'') :
    Frees held state layout state'' layout'' :=
  ⟨second.freeing, second.heap.trans first.heap, fun off cleared =>
    second.clears off (first.clears off cleared)⟩

namespace Freeing

theorem refl (freeing : Freeing held state layout) : Frees held state layout state layout :=
  ⟨freeing, rfl, fun _ => id⟩

/-- `free` of a pointer that was live once clears it, if it is not cleared. -/
theorem free (freeing : Freeing held state layout) (isHeld : held off) :
    Returns (Malloc.free state (state.heap + off)) fun state' => ∃ layout',
      Frees held state layout state' layout' ∧ Cleared layout'.blocks state' off := by
  cases freeing.pointers off isHeld with
  | inl cleared => exact ⟨state, cleared.free freeing.represents, layout, freeing.refl, cleared⟩
  | inr found =>
      obtain ⟨block, live, rfl⟩ := found
      obtain ⟨state', run, yields, clears, cleared⟩ :=
        freeing.represents.free_clears freeing.valid (by decide) live
      obtain ⟨valid, left⟩ := freeing.valid.release (by decide) live
      refine ⟨state', run, _, ⟨⟨yields.represents, valid, fun other isHeld => ?_⟩, yields.heap, clears⟩,
        cleared⟩
      cases decEq other block.off with
      | isTrue same => exact .inl (same ▸ cleared)
      | isFalse apart =>
          cases freeing.pointers other isHeld with
          | inl before => exact .inl (clears other before)
          | inr found =>
              obtain ⟨spared, live, rfl⟩ := found
              exact .inr ⟨spared, left ▸ ⟨live, apart⟩, rfl⟩

theorem freeAll (freeing : Freeing held state layout) {ptrs : List (Option Nat)}
    (areHeld : ∀ ptr ∈ ptrs, ∀ off ∈ ptr, held off) :
    Returns (Malloc.freeAll state ptrs) fun state' => ∃ layout',
      Frees held state layout state' layout' := by
  induction ptrs generalizing state layout with
  | nil => exact ⟨state, rfl, layout, freeing.refl⟩
  | cons ptr ptrs ih =>
      have later : ∀ ptr ∈ ptrs, ∀ off ∈ ptr, held off :=
        fun other inside => areHeld other (List.mem_cons_of_mem _ inside)
      unfold Malloc.freeAll
      cases ptr with
      | none =>
          have nothing : Malloc.free state (state.address none) = .ok state := if_pos rfl
          rw [nothing, ok_bind]
          exact ih freeing later
      | some off =>
          refine Returns.bind (freeing.free (areHeld _ List.mem_cons_self off rfl))
            fun state₁ freed => ?_
          obtain ⟨layout₁, frees₁, _⟩ := freed
          refine (ih frees₁.freeing later).mono fun state₂ rest => ?_
          obtain ⟨layout₂, frees₂⟩ := rest
          exact ⟨layout₂, frees₁.trans frees₂⟩

end Freeing

theorem Tracks.freeing {session : Session} (tracks : Tracks 16 session layout) :
    Freeing session.Holds session.state layout :=
  ⟨tracks.represents, tracks.valid, fun _ holds => .inr (tracks.live.mp holds)⟩

/-- On every reached heap a live pointer may be freed again. -/
theorem double_free_harmless {region : State} {calls : List Call} {outputs : List (Option Nat)}
    {session : Session} (mapped : Mapped region)
    (reaches : Reaches (Call.Sized 16) region calls outputs session) {off : Nat}
    (holds : session.Holds off) : session.Repeatable off := by
  obtain ⟨layout, _, tracks, _⟩ := reaches.tracks mapped (by decide) (by decide)
  intro ptrs areHeld
  obtain ⟨freed, run, layout₁, frees₁, cleared⟩ := tracks.freeing.free holds
  obtain ⟨last, rest, layout₂, frees₂⟩ := frees₁.freeing.freeAll areHeld
  have again := (frees₂.clears off cleared).free frees₂.freeing.represents
  rw [frees₂.heap, frees₁.heap] at again
  exact ⟨freed, last, run, rest, again⟩

/-- The block in the middle is merged on both sides before it is freed again. -/
theorem double_free_harmless_merged : ∃ session freed last,
    Reaches (Call.Sized 16) sampleRegion [.malloc 8, .malloc 8, .malloc 8]
      [some 32, some 56, some 80] session ∧
    Malloc.free session.state (session.state.heap + 56) = .ok freed ∧
    freeAll freed [some 80, none, some 56, some 32, some 80] = .ok last ∧
    Malloc.free last (session.state.heap + 56) = .ok last := by
  obtain ⟨session, reaches⟩ := Reaches.of_outputs sampleRegion_mapped
    (by decide +kernel : (Run.exec (Run.guarded Session.step (Allowed (Call.Sized 16))) _
      [.malloc 8, .malloc 8, .malloc 8]).map Prod.snd = some [some 32, some 56, some 80])
  obtain ⟨layout, run, tracks, _⟩ := reaches.tracks sampleRegion_mapped (by decide) (by decide)
  have result : Run Layout.step (fun _ _ => True) .empty [.malloc 8, .malloc 8, .malloc 8]
      [some 32, some 56, some 80]
      ⟨[⟨32, 24, true⟩, ⟨56, 24, true⟩, ⟨80, 24, true⟩], fun _ => [], 104⟩ := Run.of_exec rfl
  obtain ⟨_, rfl⟩ := run.deterministic result
  have holds : ∀ off ∈ [32, 56, 80], session.Holds off := by
    intro off isPtr
    refine tracks.live.mpr ⟨⟨off, 24, true⟩, ⟨?_, rfl⟩, rfl⟩
    simpa using isPtr
  obtain ⟨freed, last, once, rest, again⟩ := double_free_harmless sampleRegion_mapped reaches
    (holds 56 (by decide)) [some 80, none, some 56, some 32, some 80]
    (fun ptr inside other isPtr => holds other (by
      simp only [List.mem_cons, List.not_mem_nil, or_false] at inside
      grind))
  exact ⟨session, freed, last, reaches, once, rest, again⟩

/-- The header of a block after one `free` and after two. -/
def headers (state : State) (ptr : Nat) : Except Fault (Nat × Nat) := do
  let once ← Malloc.free state ptr
  let twice ← Malloc.free once ptr
  pure (once.mem.load32 (ptr - 8), twice.mem.load32 (ptr - 8))

/-- `malloc(2^32 - 16)` makes the blocks at 56 and 104 overlap. The client of
the block at 56 gives the one before 128 the tags and links of a free block, so
that its removal from the list writes the header of the block at 128. -/
theorem truncated_double_free : ∃ session freed again,
    Reaches (fun _ => True) sampleRegion
      [.malloc 8, .malloc 4294967280, .malloc 32, .malloc 8, .malloc 8, .free (some 56),
        .malloc 80, .write 96 26, .write 112 26, .write 100 65, .write 116 124, .write 57 3]
      [some 32, some 56, some 56, some 104, some 128, some 56] session ∧
    session.Holds 128 ∧ Malloc.free session.state (session.state.heap + 128) = .ok freed ∧
      Malloc.free freed (session.state.heap + 128) = .ok again ∧ again.mem ≠ freed.mem ∧
      ¬ session.Repeatable 128 := by
  have executed : (Run.exec (Run.guarded Session.step (Allowed fun _ => True))
      ⟨(memResetBrk sampleRegion).opened, []⟩
      [.malloc 8, .malloc 4294967280, .malloc 32, .malloc 8, .malloc 8, .free (some 56),
        .malloc 80, .write 96 26, .write 112 26, .write 100 65, .write 116 124,
        .write 57 3]).map (fun (session, outputs) =>
        (outputs, decide (session.Holds 128),
          (headers session.state (session.state.heap + 128)).toOption)) =
      some ([some 32, some 56, some 56, some 104, some 128, some 56], true, some (65, 66)) := by
    decide +kernel
  obtain ⟨⟨session, outputs⟩, ends, given⟩ := Option.map_eq_some_iff.mp executed
  simp only [Prod.mk.injEq, decide_eq_true_eq] at given
  obtain ⟨rfl, holds, given⟩ := given
  have reaches : Reaches (fun _ => True) sampleRegion _ _ session :=
    ⟨_, mmInit_opens sampleRegion_mapped rfl, Run.of_exec_guarded ends⟩
  obtain ⟨freed, once, result⟩ := bind_eq_ok_iff.mp (eq_ok_of_toOption given)
  obtain ⟨again, twice, result⟩ := bind_eq_ok_iff.mp result
  obtain ⟨first, second⟩ := Prod.mk.inj (Except.ok.inj result)
  have differ : again.mem ≠ freed.mem := by
    intro same
    rw [same, first] at second
    cases second
  refine ⟨session, freed, again, reaches, holds, once, twice, differ, ?_⟩
  intro repeatable
  obtain ⟨freed', last, once', rest, unchanged⟩ := repeatable [] (by simp)
  cases rest
  obtain rfl := Except.ok.inj (once.symm.trans once')
  obtain rfl := Except.ok.inj (twice.symm.trans unchanged)
  exact differ rfl

end OsPractices.Malloc
