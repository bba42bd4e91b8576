import CsoMalloc.Replay

/-! The figures of `eval_mm_util` are what its comment promises: the size of the
blocks in use, its high-water mark, and a heap that is never smaller. -/

namespace CsoMalloc

def totalInUse (ops : List TraceOp) : Int := ((inUse ops).map Prod.snd).sum

def totals (ops : List TraceOp) : Set Int := { x | ∃ l, l <+: ops ∧ totalInUse l = x }

section Room

theorem sum_card_le {α : Type*} {f : α → Finset Nat} {S : Finset Nat} {xs : List α}
    (hs : ∀ x ∈ xs, f x ⊆ S) (hd : xs.Pairwise fun x y => Disjoint (f x) (f y)) :
    (xs.map fun x => (f x).card).sum ≤ S.card := by
  induction xs generalizing S with
  | nil => simp
  | cons x xs ih =>
    obtain ⟨hx, hxs⟩ := List.pairwise_cons.mp hd
    have hrest := ih (S := S \ f x) (fun y hy => Finset.subset_sdiff.mpr
      ⟨hs y (List.mem_cons_of_mem _ hy), (hx y hy).symm⟩) hxs
    have hcard := Finset.card_sdiff_add_card_eq_card (hs x List.mem_cons_self)
    simp only [List.map_cons, List.sum_cons]
    omega

variable {E : Env} {rs : List Request} {w : World}

theorem Run.live_size_le (h : Run E rs w) : (w.live.map Live.size).sum ≤ w.heap.memHeapsize := by
  obtain ⟨hm, hwf⟩ := h.matches
  have hfit := hwf.layout.fits
  have := E.base_pos
  have := E.base_high
  have := maxHeap_eq
  have hsize := h.heapsize_eq
  have hsub : ∀ b ∈ w.live, Finset.Ico b.ptr (b.ptr + b.size) ⊆
      Finset.Ico E.base (E.base + w.heap.memHeapsize) := by
    intro b hb
    have hown := hm.own hwf hb
    have habove := hown.above
    have hbelow := hown.below
    rw [State.memHeapLo, hm.heap.startBrk] at habove
    rw [State.memHeapHi, hm.heap.brk, wsub_eq (by omega) (by omega)] at hbelow
    exact Finset.Ico_subset_Ico habove (by omega)
  have hdisj : w.live.Pairwise fun b c =>
      Disjoint (Finset.Ico b.ptr (b.ptr + b.size)) (Finset.Ico c.ptr (c.ptr + c.size)) := by
    refine (hm.ptrs_nodup hwf).of_map.pairwise_of_forall_ne fun b hb c hc hne => ?_
    have hclear := (hm.own hwf hb).others c hc hne.symm
    simp only [Clear] at hclear
    refine Finset.disjoint_left.mpr fun a ha ha' => ?_
    simp only [Finset.mem_Ico] at ha ha'
    omega
  simpa using sum_card_le hsub hdisj

end Room

section Totals

variable {E : Env} {numIds : Int} {done : List TraceOp} {op : TraceOp} {rs : List Request}
  {w : World} {held : List (Int × Live)} {blocks blockSizes : Int → Nat}

theorem sum_eraseP {α : Type*} {p : α → Bool} {f : α → Int} {xs : List α} {x : α}
    (h : xs.find? p = some x) : ((xs.eraseP p).map f).sum = (xs.map f).sum - f x := by
  induction xs with
  | nil => simp at h
  | cons y xs ih =>
    by_cases hp : p y
    · obtain rfl : y = x := by simpa [hp] using h
      simp [List.eraseP_cons_of_pos hp]
    · have := ih (by simpa [hp] using h)
      simp only [List.eraseP_cons_of_neg hp, List.map_cons, List.sum_cons]
      omega

theorem Tracks.total_eq (h : Tracks E done rs w held blocks blockSizes) :
    totalInUse done = (held.map fun g => (g.2.size : Int)).sum := by
  rw [totalInUse, h.inUse, List.map_map]
  rfl

theorem Tracks.total_le (h : Tracks E done rs w held blocks blockSizes) :
    totalInUse done ≤ w.heap.memHeapsize ∧ w.heap.memHeapsize ≤ maxHeap := by
  have hr := h.run
  have hle := hr.live_size_le
  have hcast : (held.map fun g => (g.2.size : Int)).sum = ((w.live.map Live.size).sum : Nat) := by
    rw [h.live, Nat.cast_list_sum, List.map_map, List.map_map]
    rfl
  rw [h.total_eq, hcast, hr.heapsize_eq]
  rw [hr.heapsize_eq] at hle
  exact ⟨by exact_mod_cast hle, hr.matches.2.layout.fits⟩

theorem Tracks.total_nonneg (h : Tracks E done rs w held blocks blockSizes) : 0 ≤ totalInUse done := by
  rw [h.total_eq]
  refine List.sum_nonneg fun x hx => ?_
  obtain ⟨g, _, rfl⟩ := List.mem_map.mp hx
  exact Int.natCast_nonneg _

theorem Tracks.size_le (h : Tracks E done rs w held blocks blockSizes) {g : Int × Live}
    (hg : g ∈ held) : g.2.size ≤ maxHeap := by
  have hr := h.run
  have hb : g.2 ∈ w.live := h.live ▸ List.mem_map_of_mem hg
  have hle : g.2.size ≤ (w.live.map Live.size).sum :=
    List.single_le_sum (fun _ _ => Nat.zero_le _) _ (List.mem_map_of_mem hb)
  have := hr.live_size_le
  have := h.total_le.2
  omega

theorem totals_append (done : List TraceOp) (op : TraceOp) :
    totals (done ++ [op]) = insert (totalInUse (done ++ [op])) (totals done) := by
  ext x
  simp only [totals, List.prefix_concat_iff, Set.mem_insert_iff, Set.mem_ofPred_eq]
  constructor
  · rintro ⟨l, rfl | hl, rfl⟩
    · exact .inl rfl
    · exact .inr ⟨l, hl, rfl⟩
  · rintro (rfl | ⟨l, hl, rfl⟩)
    · exact ⟨_, .inl rfl, rfl⟩
    · exact ⟨l, .inr hl, rfl⟩

end Totals

/-- What holds after the operations `done` of a replay by `eval_mm_util`. -/
structure UtilInvariant (E : Env) (done : List TraceOp) (u : Util) : Prop where
  tracks : ∃ rs w held, Tracks E done rs w held u.blocks u.blockSizes ∧ w.heap = u.heap
  total : u.totalSize = totalInUse done
  greatest : IsGreatest (totals done) u.maxTotalSize
  bound : u.maxTotalSize ≤ u.heap.memHeapsize

section Steps

variable {E : Env} {numIds : Int} {done : List TraceOp} {op : TraceOp} {u : Util} {s : State}
  {p : Nat}

theorem ok_bind {α β : Type} (a : α) (f : α → Except Halt β) : (Except.ok a >>= f) = f a := rfl

theorem error_bind {α β : Type} (e : Halt) (f : α → Except Halt β) :
    (Except.error e >>= f) = .error e := rfl

theorem checkInt_eq {i : Int} (h : -2 ^ 31 ≤ i) (h' : i < 2 ^ 31) : checkInt i = .ok i :=
  if_pos ⟨h, h'⟩

/-- The state after an allocating operation of `eval_mm_util`. -/
def Util.after (u : Util) (op : TraceOp) (s : State) (p : Nat) (total : Int) : Util :=
  ⟨s, Function.update u.blocks op.index p, Function.update u.blockSizes op.index (word op.size),
    total, if total > u.maxTotalSize then total else u.maxTotalSize⟩

theorem utilOp_alloc (ht : op.type = .alloc)
    (he : mmMalloc u.heap (word op.size) = some (s, p)) (hp : p ≠ 0)
    (hc : checkInt (u.totalSize + op.size) = .ok (u.totalSize + op.size)) :
    utilOp op u = .ok (u.after op s p (u.totalSize + op.size)) := by
  rw [utilOp, ht]
  simp only [he, orDiverge, if_neg hp, hc, bind, Except.bind, pure, Except.pure, Util.after]

theorem utilOp_alloc_null (ht : op.type = .alloc)
    (he : mmMalloc u.heap (word op.size) = some (s, 0)) :
    utilOp op u = .error (.appError .mallocFailed) := by
  rw [utilOp, ht]
  simp only [he, orDiverge, if_true, bind, Except.bind, throw, throwThe, MonadExceptOf.throw]

theorem utilOp_realloc (ht : op.type = .realloc)
    (he : mmRealloc u.heap (u.blocks op.index) (word op.size) = some (s, p)) (hp : p ≠ 0)
    {k : Int} (hk : toInt (u.blockSizes op.index) = k) (hd : checkInt (op.size - k) = .ok (op.size - k))
    (hc : checkInt (u.totalSize + (op.size - k)) = .ok (u.totalSize + (op.size - k))) :
    utilOp op u = .ok (u.after op s p (u.totalSize + (op.size - k))) := by
  rw [utilOp, ht]
  simp only [he, orDiverge, if_neg hp, hk, hd, hc, bind, Except.bind, pure, Except.pure, Util.after]

theorem utilOp_realloc_null (ht : op.type = .realloc)
    (he : mmRealloc u.heap (u.blocks op.index) (word op.size) = some (s, 0)) :
    utilOp op u = .error (.appError .reallocFailed) := by
  rw [utilOp, ht]
  simp only [he, orDiverge, if_true, bind, Except.bind, throw, throwThe, MonadExceptOf.throw]

theorem utilOp_free (ht : op.type = .free) (he : mmFree u.heap (u.blocks op.index) = some s)
    {k : Int} (hk : toInt (u.blockSizes op.index) = k)
    (hc : checkInt (u.totalSize - k) = .ok (u.totalSize - k)) :
    utilOp op u = .ok { u with heap := s, totalSize := u.totalSize - k } := by
  rw [utilOp, ht]
  dsimp only
  rw [he, hk, hc]
  rfl

theorem isGreatest_after {t : Int} (h : IsGreatest (totals done) u.maxTotalSize)
    (ht : totalInUse (done ++ [op]) = t) :
    IsGreatest (totals (done ++ [op])) (if t > u.maxTotalSize then t else u.maxTotalSize) := by
  rw [totals_append, ht]
  have hmax : (if t > u.maxTotalSize then t else u.maxTotalSize) = max t u.maxTotalSize := by
    split <;> omega
  rw [hmax]
  exact h.insert t

theorem UtilInvariant.push (h : UtilInvariant E done u) {rs : List Request} {w : World}
    {held : List (Int × Live)} {t : Int} (ht : Tracks E (done ++ [op]) rs w held (Function.update u.blocks op.index p)
      (Function.update u.blockSizes op.index (word op.size)))
    (hs : w.heap = s) (hg : u.heap.memHeapsize ≤ s.memHeapsize)
    (htot : totalInUse (done ++ [op]) = t) :
    UtilInvariant E (done ++ [op]) (u.after op s p t) := by
  refine ⟨⟨rs, w, held, ht, hs⟩, htot.symm, isGreatest_after h.greatest htot, ?_⟩
  have hle := ht.total_le.1
  rw [hs, htot] at hle
  have hb := h.bound
  simp only [Util.after]
  split
  · exact hle
  · omega

theorem UtilInvariant.alloc (h : UtilInvariant E done u) (hop : op.Allowed numIds done)
    (ht : op.type = .alloc) :
    (∃ msg, utilOp op u = .error (.appError msg)) ∨
      ∃ u', utilOp op u = .ok u' ∧ UtilInvariant E (done ++ [op]) u' := by
  obtain ⟨rs, w, held, hw, hheap⟩ := h.tracks
  obtain ⟨s, p, he, hok⟩ := hw.alloc hop ht
  rw [hheap] at he hok
  by_cases hp : p = 0
  · subst hp
    exact .inl ⟨_, utilOp_alloc_null ht he⟩
  · obtain ⟨w', b, hw', hs, _, hb, _, hg⟩ := hok hp
    obtain ⟨hsz, _, _⟩ := Tracks.size_eq hop (by simp [ht])
    have htot : totalInUse (done ++ [op]) = u.totalSize + op.size := by
      rw [h.total, hw.total_eq, hw'.total_eq, List.map_cons, List.sum_cons, hb, hsz, add_comm]
    have hle := hw'.total_le
    have hpos := hw.total_nonneg
    have htotal := h.total
    have := maxHeap_eq
    refine .inr ⟨_, utilOp_alloc ht he hp (checkInt_eq ?_ ?_), h.push hw' hs hg htot⟩
    · omega
    · omega

theorem UtilInvariant.realloc (h : UtilInvariant E done u) (hop : op.Allowed numIds done)
    (ht : op.type = .realloc) :
    (∃ msg, utilOp op u = .error (.appError msg)) ∨
      ∃ u', utilOp op u = .ok u' ∧ UtilInvariant E (done ++ [op]) u' := by
  obtain ⟨rs, w, held, hw, hheap⟩ := h.tracks
  obtain ⟨c, _, hf, hptr, hsize, s, p, he, hok⟩ := hw.realloc hop ht
  rw [hheap, ← hptr] at he
  rw [hheap] at hok
  by_cases hp : p = 0
  · subst hp
    exact .inl ⟨_, utilOp_realloc_null ht he⟩
  · obtain ⟨w', b, hw', hs, _, hb, _, hg, _⟩ := hok hp
    obtain ⟨hsz, hsm, _⟩ := Tracks.size_eq hop (by simp [ht])
    have hcm : c.size ≤ maxHeap := hw.size_le (List.mem_of_find?_eq_some hf)
    have htot : totalInUse (done ++ [op]) = u.totalSize + (op.size - c.size) := by
      rw [h.total, hw.total_eq, hw'.total_eq, List.map_cons, List.sum_cons, hb, hsz,
        sum_eraseP hf]
      ring
    have hle := hw'.total_le
    have hpos := hw'.total_nonneg
    have := maxHeap_eq
    have hk : toInt (u.blockSizes op.index) = c.size := by
      rw [hsize, toInt_eq (by omega)]
    refine .inr ⟨_, utilOp_realloc ht he hp hk (checkInt_eq ?_ ?_) (checkInt_eq ?_ ?_),
      h.push hw' hs hg htot⟩
    all_goals omega

theorem UtilInvariant.free (h : UtilInvariant E done u) (hop : op.Allowed numIds done)
    (ht : op.type = .free) :
    ∃ u', utilOp op u = .ok u' ∧ UtilInvariant E (done ++ [op]) u' := by
  obtain ⟨rs, w, held, hw, hheap⟩ := h.tracks
  obtain ⟨c, _, hf, hptr, hsize, s, w', he, hw', hs, _, hg⟩ := hw.free hop ht
  rw [hheap, ← hptr] at he
  rw [hheap] at hg
  have hcm : c.size ≤ maxHeap := hw.size_le (List.mem_of_find?_eq_some hf)
  have htot : totalInUse (done ++ [op]) = u.totalSize - c.size := by
    rw [h.total, hw.total_eq, hw'.total_eq, sum_eraseP hf]
  have hle := hw.total_le
  have hpos := hw'.total_nonneg
  have htotal := h.total
  have hgreat := h.greatest
  have hbound := h.bound
  have := maxHeap_eq
  have hk : toInt (u.blockSizes op.index) = c.size := by
    rw [hsize, toInt_eq (by omega)]
  refine ⟨_, utilOp_free ht he hk (checkInt_eq (by omega) (by omega)), ⟨_, w', _, hw', hs⟩, htot.symm,
    ?_, ?_⟩
  · -- freeing lowers the total, so the high-water mark stays
    have hold : u.totalSize ≤ u.maxTotalSize := hgreat.2 ⟨done, List.prefix_rfl, htotal.symm⟩
    have hi := hgreat.insert (totalInUse (done ++ [op]))
    rw [max_eq_right (by omega)] at hi
    rwa [totals_append]
  · exact hbound.trans (by exact_mod_cast hg)

theorem UtilInvariant.step (h : UtilInvariant E done u) (hop : op.Allowed numIds done) :
    (∃ msg, utilOp op u = .error (.appError msg)) ∨
      ∃ u', utilOp op u = .ok u' ∧ UtilInvariant E (done ++ [op]) u' := by
  cases ht : op.type with
  | alloc => exact h.alloc hop ht
  | realloc => exact h.realloc hop ht
  | free => exact .inr (h.free hop ht)

end Steps

section Loop

variable {E : Env} {numIds : Int} {u : Util}

theorem utilLoop_append (l r : List TraceOp) (u : Util) :
    utilLoop (l ++ r) u = utilLoop l u >>= utilLoop r := by
  induction l generalizing u with
  | nil => rfl
  | cons op l ih =>
    rw [List.cons_append, utilLoop, utilLoop]
    cases utilOp op u with
    | error e => rfl
    | ok u' => exact ih u'

theorem TraceOp.Sequence.allowed {done l r : List TraceOp} {op : TraceOp}
    (h : TraceOp.Sequence numIds done (l ++ op :: r)) : op.Allowed numIds (done ++ l) := by
  induction l generalizing done with
  | nil => simpa using h.1
  | cons a l ih =>
    have ha := ih h.2
    rwa [List.append_assoc, List.singleton_append] at ha

/-- The run lemma of `eval_mm_util`: the invariant holds after every part of the
trace that is replayed without a failing call. -/
theorem UtilInvariant.loop (h : UtilInvariant E [] u) {l r : List TraceOp}
    (hseq : TraceOp.Sequence numIds [] (l ++ r))
    (hok : ∀ msg, utilLoop (l ++ r) u ≠ .error (.appError msg)) :
    ∃ u', utilLoop l u = .ok u' ∧ UtilInvariant E l u' := by
  induction l using List.reverseRecOn generalizing r with
  | nil => exact ⟨u, rfl, h⟩
  | append_singleton l op ih =>
    rw [List.append_assoc, List.singleton_append] at hseq hok
    obtain ⟨u₁, h₁, hinv⟩ := ih hseq hok
    have hloop : ∀ rest, utilLoop (l ++ op :: rest) u = utilOp op u₁ >>= utilLoop rest := by
      intro rest
      rw [utilLoop_append, h₁]
      rfl
    rcases hinv.step hseq.allowed with ⟨msg, he⟩ | ⟨u₂, he, hinv'⟩
    · refine absurd ?_ (hok msg)
      rw [hloop, he]
      rfl
    · refine ⟨u₂, ?_, hinv'⟩
      rw [hloop, he]
      rfl

/-- In a replay of a well-formed trace without a failing call, after every
operation `total_size` is the size of the blocks in use, `max_total_size` the
greatest such size so far and no larger than the heap, and no `int` overflowed. -/
theorem utilization_is_high_water (E : Env) {t : Trace} (ht : t.WellFormed) (u : Util)
    (hok : ∀ msg, evalMmUtil E.base E.pageSize t u ≠ .error (.appError msg)) :
    ∀ l r, t.ops = l ++ r → ∃ u', evalMmUtil E.base E.pageSize ⟨t.numIds, l⟩ u = .ok u' ∧
      u'.totalSize = totalInUse l ∧ IsGreatest (totals l) u'.maxTotalSize ∧
      u'.maxTotalSize ≤ u'.heap.memHeapsize := by
  intro l r hlr
  obtain ⟨s, hs, _⟩ := mmInit_refines E u.heap.memResetBrk
  have heval : ∀ ops, evalMmUtil E.base E.pageSize ⟨t.numIds, ops⟩ u =
      utilLoop ops { u with heap := s, totalSize := 0, maxTotalSize := 0 } := by
    intro ops
    rw [evalMmUtil, hs]
    rfl
  have hinit : UtilInvariant E [] { u with heap := s, totalSize := 0, maxTotalSize := 0 } := by
    refine ⟨⟨_, _, [], Tracks.init hs, rfl⟩, rfl, ⟨⟨[], List.prefix_rfl, rfl⟩, ?_⟩,
      Int.natCast_nonneg _⟩
    rintro x ⟨l, hl, rfl⟩
    rw [List.prefix_nil.mp hl]
    exact le_rfl
  rw [Trace.WellFormed, hlr] at ht
  have hok' : ∀ msg, utilLoop (l ++ r) _ ≠ .error (.appError msg) := fun msg => by
    rw [← heval, ← hlr]
    exact hok msg
  obtain ⟨u', hu', hinv⟩ := hinit.loop ht hok'
  exact ⟨u', (heval l).trans hu', hinv.total, hinv.greatest, hinv.bound⟩

theorem utilOp_free_ne {op : TraceOp} (ht : op.type = .free) (msg : Message) :
    utilOp op u ≠ .error (.appError msg) := by
  rw [utilOp, ht]
  dsimp only
  cases mmFree u.heap (u.blocks op.index) with
  | none => exact fun he => by cases he
  | some s =>
    intro he
    have hc : (checkInt (u.totalSize - toInt (u.blockSizes op.index)) >>= fun total =>
        pure { u with heap := s, totalSize := total }) = Except.error (Halt.appError msg) := he
    rw [checkInt] at hc
    split at hc <;> cases hc

theorem utilLoop_free_ne {op : TraceOp} (ht : op.type = .free) (msg : Message) :
    utilLoop [op] u ≠ .error (.appError msg) := by
  rw [utilLoop]
  cases hx : utilOp op u with
  | ok v =>
    rw [ok_bind, utilLoop]
    simp
  | error e =>
    rw [error_bind]
    exact hx ▸ utilOp_free_ne ht msg

theorem utilization_is_high_water_small :
    ∃ u', evalMmUtil Env.small.base Env.small.pageSize ⟨1, [⟨.alloc, 0, 24⟩, ⟨.free, 0, 0⟩]⟩
        ⟨default, fun _ => 0, fun _ => 0, 0, 0⟩ = .ok u' ∧
      u'.totalSize = 0 ∧ u'.maxTotalSize ≤ u'.heap.memHeapsize := by
  have hok : ∀ msg, evalMmUtil Env.small.base Env.small.pageSize
      ⟨1, [⟨.alloc, 0, 24⟩, ⟨.free, 0, 0⟩]⟩ ⟨default, fun _ => 0, fun _ => 0, 0, 0⟩ ≠
        .error (.appError msg) := by
    intro msg
    obtain ⟨s, hs, hr⟩ := mmInit_refines Env.small (State.memResetBrk default)
    have hwf : (Layout.initial Env.small.page).WF := Layout.initial_wf (by decide)
    obtain ⟨s', he, _⟩ := hr.malloc hwf (n := 24) (by decide)
    have hp : ((Layout.initial Env.small.page).malloc Env.small.page 24).2 = some 16 := by decide
    rw [hp] at he
    have ha := @utilOp_alloc ⟨.alloc, 0, 24⟩ ⟨s, fun _ => 0, fun _ => 0, 0, 0⟩ s'
      (Env.small.ptr (some 16)) rfl he (by decide)
      (checkInt_eq (i := 24) (by decide) (by decide))
    rw [evalMmUtil, hs]
    show (utilOp _ _ >>= utilLoop [⟨.free, 0, 0⟩]) ≠ _
    rw [ha, ok_bind]
    exact utilLoop_free_ne rfl msg
  obtain ⟨u', he, ht, _, hb⟩ := utilization_is_high_water Env.small
    (t := ⟨1, [⟨.alloc, 0, 24⟩, ⟨.free, 0, 0⟩]⟩) (by decide) _ hok _ []
    (List.append_nil _).symm
  exact ⟨u', he, ht.trans (by decide), hb⟩

end Loop

end CsoMalloc
