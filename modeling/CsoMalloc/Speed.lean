import CsoMalloc.Rehearsal

/-! The replays that are timed. `eval_mm_speed` and its two siblings for the
allocator of the C library make the same calls and check nothing but `NULL`. -/

namespace CsoMalloc

/-- The three calls of an allocator. A call that never returns has no result. -/
structure Allocator (σ : Type) where
  malloc : σ → Nat → Option (σ × Nat)
  realloc : σ → Nat → Nat → Option (σ × Nat)
  free : σ → Nat → Option σ

def mmAllocator : Allocator State := ⟨mmMalloc, mmRealloc, mmFree⟩

section Replay

variable {σ : Type}

/-- One turn of the loop of `eval_mm_speed` or of `eval_libc_speed`, on the
allocator's state and `trace->blocks`. -/
def speedOp (A : Allocator σ) (op : TraceOp) (x : σ × (Int → Nat)) :
    Except Halt (σ × (Int → Nat)) :=
  match op.type with
  | .alloc => do
    let (s, p) ← orDiverge (A.malloc x.1 (word op.size))
    if p = 0 then
      throw (.appError .mallocFailed)
    return (s, Function.update x.2 op.index p)
  | .realloc => do
    let (s, newp) ← orDiverge (A.realloc x.1 (x.2 op.index) (word op.size))
    if newp = 0 then
      throw (.appError .reallocFailed)
    return (s, Function.update x.2 op.index newp)
  | .free => do
    let s ← orDiverge (A.free x.1 (x.2 op.index))
    return (s, x.2)

def speedLoop (A : Allocator σ) : List TraceOp → σ × (Int → Nat) → Except Halt (σ × (Int → Nat))
  | [], x => .ok x
  | op :: ops, x => do
    let x ← speedOp A op x
    speedLoop A ops x

end Replay

/-- `eval_mm_speed`, given the arena and the page size that `mm_init` finds. -/
def evalMmSpeed (arena pagesize : Nat) (trace : Trace) (x : State × (Int → Nat)) :
    Except Halt (State × (Int → Nat)) := do
  let (heap, r) ← orDiverge (mmInit arena pagesize x.1.memResetBrk)
  if r < 0 then
    throw (.appError .initFailed)
  speedLoop mmAllocator trace.ops (heap, x.2)

/-- An allocator that keeps the pointers it has handed out and does not return
from a call with any other one. -/
def Allocator.guarded {σ : Type} (A : Allocator σ) : Allocator (σ × List Nat) where
  malloc x n := (A.malloc x.1 n).map fun (s, p) => ((s, if p = 0 then x.2 else p :: x.2), p)
  realloc x p n :=
    if p ∈ x.2 then
      (A.realloc x.1 p n).map fun (s, q) => ((s, if q = 0 then x.2 else q :: x.2.erase p), q)
    else none
  free x p := if p ∈ x.2 then (A.free x.1 p).map fun s => (s, x.2.erase p) else none

section Equations

variable {σ : Type} {A : Allocator σ} {op : TraceOp} {x : σ × (Int → Nat)}

def settle (msg : Message) (blocks : Int → Nat) (index : Int) :
    Option (σ × Nat) → Except Halt (σ × (Int → Nat))
  | none => .error .divergence
  | some (s, p) =>
    if p = 0 then .error (.appError msg) else .ok (s, Function.update blocks index p)

theorem speedOp_alloc (ht : op.type = .alloc) :
    speedOp A op x = settle .mallocFailed x.2 op.index (A.malloc x.1 (word op.size)) := by
  rw [speedOp, ht]
  cases A.malloc x.1 (word op.size) with
  | none => rfl
  | some r =>
    simp only [settle, orDiverge, bind, Except.bind]
    split <;> rfl

theorem speedOp_realloc (ht : op.type = .realloc) :
    speedOp A op x =
      settle .reallocFailed x.2 op.index (A.realloc x.1 (x.2 op.index) (word op.size)) := by
  rw [speedOp, ht]
  cases A.realloc x.1 (x.2 op.index) (word op.size) with
  | none => rfl
  | some r =>
    simp only [settle, orDiverge, bind, Except.bind]
    split <;> rfl

theorem speedOp_free (ht : op.type = .free) :
    speedOp A op x = (orDiverge (A.free x.1 (x.2 op.index))).map fun s => (s, x.2) := by
  rw [speedOp, ht]
  cases A.free x.1 (x.2 op.index) with
  | none => rfl
  | some s => rfl

end Equations

theorem perm_cons_eraseP {α : Type*} {p : α → Bool} {xs : List α} {x : α}
    (h : xs.find? p = some x) : xs.Perm (x :: xs.eraseP p) := by
  induction xs with
  | nil => simp at h
  | cons y xs ih =>
    by_cases hp : p y
    · obtain rfl : y = x := by simpa [hp] using h
      rw [List.eraseP_cons_of_pos hp]
    · rw [List.eraseP_cons_of_neg hp]
      exact ((ih (by simpa [hp] using h)).cons y).trans (List.Perm.swap x y _)

section Alike

variable {σ α β : Type}

/-- Both programs stop for the same reason, or the guarded one comes to the result
of the other one, with pointers out of which `P` holds. -/
def Alike (P : α → List Nat → Prop) (r : Except Halt (σ × α))
    (g : Except Halt ((σ × List Nat) × α)) : Prop :=
  (∃ e, r = .error e ∧ g = .error e) ∨
    ∃ s out a, r = .ok (s, a) ∧ g = .ok ((s, out), a) ∧ P a out

variable {P : α → List Nat → Prop} {Q : β → List Nat → Prop} {r : Except Halt (σ × α)}
  {g : Except Halt ((σ × List Nat) × α)}

theorem Alike.bind {f : σ × α → Except Halt (σ × β)}
    {f' : (σ × List Nat) × α → Except Halt ((σ × List Nat) × β)} (h : Alike P r g)
    (hf : ∀ s out a, P a out → Alike Q (f (s, a)) (f' ((s, out), a))) :
    Alike Q (r >>= f) (g >>= f') := by
  rcases h with ⟨e, rfl, rfl⟩ | ⟨s, out, a, rfl, rfl, hp⟩
  · exact .inl ⟨e, rfl, rfl⟩
  · exact hf s out a hp

theorem Alike.mono {P' : α → List Nat → Prop} (h : Alike P r g)
    (hp : ∀ a out, P a out → P' a out) : Alike P' r g := by
  rcases h with he | ⟨s, out, a, hr, hg, ha⟩
  · exact .inl he
  · exact .inr ⟨s, out, a, hr, hg, hp a out ha⟩

end Alike

section Discipline

variable {σ : Type} {A : Allocator σ} {numIds : Int} {left : List Nat} {done : List TraceOp}
  {op : TraceOp} {blocks : Int → Nat} {out : List Nat}

/-- The pointers out are those of the ids in use and the ones `left` by earlier
replays, and the array knows the newest one of every id not freed. -/
structure Entrusted (left : List Nat) (done : List TraceOp) (blocks : Int → Nat)
    (out : List Nat) (held : List (Int × Nat)) : Prop where
  ids : held.map Prod.fst = (inUse done).map Prod.fst
  out : out.Perm (held.map Prod.snd ++ left)
  current : ∀ i, (∀ a ∈ done, a.type = .free → a.index ≠ i) →
    ∀ g, held.find? (fun g => g.1 = i) = some g → blocks i = g.2

def Entrusted.To (left : List Nat) (done : List TraceOp) (blocks : Int → Nat) (out : List Nat) :
    Prop :=
  ∃ held, Entrusted left done blocks out held

namespace Entrusted

variable {held : List (Int × Nat)}

theorem find (h : Entrusted left done blocks out held) (hop : op.Allowed numIds done)
    (ht : op.type ≠ .alloc) :
    held.find? (fun g => g.1 = op.index) = some (op.index, blocks op.index) := by
  obtain ⟨c, hc, hci⟩ := mem_inUse (hop.allocated ht) hop.notFreed
  have hmem : c.1 ∈ held.map Prod.fst := h.ids ▸ List.mem_map_of_mem hc
  obtain ⟨g, hg, hgc⟩ := List.mem_map.mp hmem
  cases hf : held.find? fun g => g.1 = op.index with
  | none => exact absurd (hgc.trans hci) (by simpa using List.find?_eq_none.mp hf g hg)
  | some x =>
    have hx : x.1 = op.index := by simpa using List.find?_some hf
    rw [h.current _ hop.notFreed x hf, ← hx]

theorem erase (h : Entrusted left done blocks out held) (hop : op.Allowed numIds done)
    (ht : op.type ≠ .alloc) :
    blocks op.index ∈ out ∧ (out.erase (blocks op.index)).Perm
      ((held.eraseP fun g => g.1 = op.index).map Prod.snd ++ left) := by
  have hheld := ((perm_cons_eraseP (h.find hop ht)).map Prod.snd).append_right left
  have hsplit := h.out.trans hheld
  have hmem : blocks op.index ∈ out := hsplit.mem_iff.mpr List.mem_cons_self
  exact ⟨hmem, ((List.perm_cons_erase hmem).symm.trans hsplit).cons_inv⟩

theorem ids_eraseP (h : held.map Prod.fst = (inUse done).map Prod.fst) (i : Int) :
    (held.eraseP fun g => g.1 = i).map Prod.fst =
      ((inUse done).eraseP fun b => b.1 = i).map Prod.fst := by
  have hmap : ∀ {β : Type} (xs : List (Int × β)),
      (xs.eraseP fun g => g.1 = i).map Prod.fst = (xs.map Prod.fst).eraseP fun j => j = i := by
    intro β xs
    rw [List.eraseP_map]
    rfl
  rw [hmap, hmap, h]

theorem push (h : Entrusted left done blocks out held) {rest : List (Int × Nat)}
    {kept : List Nat} (p : Nat)
    (hids : (op.advance (inUse done)).map Prod.fst = op.index :: rest.map Prod.fst)
    (hk : kept.Perm (rest.map Prod.snd ++ left))
    (hc : ∀ j, j ≠ op.index → rest.find? (fun g => g.1 = j) = held.find? fun g => g.1 = j) :
    Entrusted left (done ++ [op]) (Function.update blocks op.index p) (p :: kept)
      ((op.index, p) :: rest) := by
  refine ⟨by rw [inUse_append, hids]; rfl, hk.cons p, fun i hi g hg => ?_⟩
  by_cases he : i = op.index
  · subst he
    obtain rfl : (op.index, p) = g := by simpa using hg
    simp
  · rw [Function.update_of_ne he]
    refine h.current i (fun a ha => hi a (List.mem_append_left _ ha)) g ?_
    rw [← hc i he]
    simpa [List.find?_cons, Ne.symm he] using hg

theorem drop (h : Entrusted left done blocks out held) (hop : op.Allowed numIds done)
    (ht : op.type = .free) :
    Entrusted left (done ++ [op]) blocks (out.erase (blocks op.index))
      (held.eraseP fun g => g.1 = op.index) := by
  refine ⟨?_, (h.erase hop (by simp [ht])).2, fun i hi g hg => ?_⟩
  · rw [inUse_append, ids_eraseP h.ids]
    simp only [TraceOp.advance, ht]
  · have hne : i ≠ op.index := (hi op (by simp) ht).symm
    rw [find?_eraseP_ne hne] at hg
    exact h.current i (fun a ha => hi a (List.mem_append_left _ ha)) g hg

/-- The common part of the two allocating calls; `kept` are the pointers that
are out beside the new one. -/
theorem settle_guarded {msg : Message} {kept : List Nat} {rest : List (Int × Nat)}
    (h : Entrusted left done blocks out held) (r : Option (σ × Nat))
    (hids : (op.advance (inUse done)).map Prod.fst = op.index :: rest.map Prod.fst)
    (hk : kept.Perm (rest.map Prod.snd ++ left))
    (hc : ∀ j, j ≠ op.index → rest.find? (fun g => g.1 = j) = held.find? fun g => g.1 = j) :
    Alike (To left (done ++ [op])) (settle msg blocks op.index r) (settle msg blocks op.index
      (r.map fun (s, p) => ((s, if p = 0 then out else p :: kept), p))) := by
  cases r with
  | none => exact .inl ⟨_, rfl, rfl⟩
  | some r =>
    obtain ⟨s, p⟩ := r
    by_cases hp : p = 0
    · exact .inl ⟨.appError msg, by simp [settle, hp], by simp [settle, hp]⟩
    · refine .inr ⟨s, p :: kept, _, ?_, ?_, _, h.push p hids hk hc⟩
      · simp [settle, hp]
      · simp [settle, hp]

theorem step (h : Entrusted left done blocks out held) (hop : op.Allowed numIds done) (s : σ) :
    Alike (To left (done ++ [op])) (speedOp A op (s, blocks))
      (speedOp A.guarded op ((s, out), blocks)) := by
  cases ht : op.type with
  | alloc =>
    rw [speedOp_alloc ht, speedOp_alloc ht]
    refine h.settle_guarded _ ?_ h.out fun _ _ => rfl
    rw [TraceOp.advance, ht]
    exact congrArg _ h.ids.symm
  | realloc =>
    obtain ⟨hmem, hperm⟩ := h.erase hop (by simp [ht])
    rw [speedOp_realloc ht, speedOp_realloc ht]
    have hg : A.guarded.realloc (s, out) (blocks op.index) (word op.size) = _ := if_pos hmem
    simp only [hg]
    refine h.settle_guarded _ ?_ hperm fun j hj => find?_eraseP_ne hj held
    rw [TraceOp.advance, ht, ids_eraseP h.ids]
    rfl
  | free =>
    obtain ⟨hmem, _⟩ := h.erase hop (by simp [ht])
    rw [speedOp_free ht, speedOp_free ht]
    have hg : A.guarded.free (s, out) (blocks op.index) = _ := if_pos hmem
    simp only [hg]
    cases A.free s (blocks op.index) with
    | none => exact .inl ⟨_, rfl, rfl⟩
    | some s' => exact .inr ⟨s', _, blocks, rfl, rfl, _, h.drop hop ht⟩

theorem loop (h : Entrusted left done blocks out held) {ops : List TraceOp}
    (hseq : TraceOp.Sequence numIds done ops) (s : σ) :
    Alike (To left (done ++ ops)) (speedLoop A ops (s, blocks))
      (speedLoop A.guarded ops ((s, out), blocks)) := by
  induction ops generalizing done blocks out held s with
  | nil => exact .inr ⟨s, out, blocks, rfl, rfl, held, by rwa [List.append_nil]⟩
  | cons op ops ih =>
    rw [speedLoop, speedLoop]
    apply (h.step (A := A) hseq.1 s).bind
    rintro s' out' blocks' ⟨held', h'⟩
    have hloop := ih h' hseq.2 s'
    rwa [List.append_assoc, List.singleton_append] at hloop

theorem length_eq (h : To left done blocks out) :
    out.length = left.length + (inUse done).length := by
  obtain ⟨held, h⟩ := h
  have hids := congrArg List.length h.ids
  have hout := h.out.length_eq
  simp only [List.length_map, List.length_append] at hids hout
  omega

end Entrusted

end Discipline

end CsoMalloc
