import CsoMalloc.Runs
import CsoMalloc.Free

/-! The same runs on layouts. A plan needs no memory, so it cannot depend on
what is in it. -/

namespace CsoMalloc

open Tiling

/-- A layout with the blocks in use by offset; the log keeps the result of
every call and the layout after it. -/
structure Plan where
  layout : Layout
  live : List Live
  log : List (Option Nat × Layout)

namespace Plan

def initial (page : Size) : Plan := ⟨Layout.initial page, [], []⟩

def call (page : Size) (P : Plan) : Request → Plan
  | .malloc n =>
    let (L, r) := P.layout.malloc page n
    ⟨L, r.elim P.live fun o => ⟨P.log.length, o, n⟩ :: P.live, P.log ++ [(r, L)]⟩
  | .free k =>
    match Live.find P.live k with
    | none => P
    | some b =>
      let L := P.layout.free b.ptr
      ⟨L, Live.drop P.live k, P.log ++ [(none, L)]⟩
  | .realloc k n =>
    match Live.find P.live k with
    | none => P
    | some b =>
      let (L, r) := P.layout.realloc page b.ptr n
      ⟨L, r.elim P.live fun o => ⟨P.log.length, o, n⟩ :: Live.drop P.live k, P.log ++ [(r, L)]⟩

def run (page : Size) (rs : List Request) : Plan := rs.foldl (call page) (initial page)

/-- Every request is allowed when its turn comes. -/
def Admits (page : Size) : Plan → List Request → Prop
  | _, [] => True
  | P, q :: qs => q.Allowed P.live ∧ Admits page (P.call page q) qs

instance decidableAdmits (page : Size) : (P : Plan) → (qs : List Request) → Decidable (P.Admits page qs)
  | _, [] => isTrue trivial
  | P, q :: qs =>
    have := decidableAdmits page (P.call page q) qs
    inferInstanceAs (Decidable (q.Allowed P.live ∧ Admits page (P.call page q) qs))

/-- The live blocks are the allocated ones, each large enough for its request. -/
structure WF (P : Plan) : Prop where
  layout : P.layout.WF
  owned : ∀ b ∈ P.live, ∃ k : Nat, (b.ptr, k) ∈ spans true 16 P.layout.blocks ∧ fitSize b.size ≤ k
  covered : ∀ o k, (o, k) ∈ spans true 16 P.layout.blocks → ∃ b ∈ P.live, b.ptr = o
  ptrs : (P.live.map Live.ptr).Nodup
  ids : (P.live.map Live.id).Nodup
  old : ∀ b ∈ P.live, b.id < P.log.length ∧ 0 < b.size

end Plan

section Live

variable {live : List Live} {k : Nat} {b : Live}

@[simp] theorem Live.mem_drop : b ∈ Live.drop live k ↔ b ∈ live ∧ b.id ≠ k := by
  simp [Live.drop]

theorem Live.find_some (h : Live.find live k = some b) : b ∈ live ∧ b.id = k := by
  have hb := List.find?_some h
  exact ⟨List.mem_of_find?_eq_some h, by simpa using hb⟩

theorem Live.find_of_mem (h : b ∈ live) (hk : b.id = k) : ∃ c, Live.find live k = some c := by
  cases hf : Live.find live k with
  | none => exact absurd hk (by simpa using List.find?_eq_none.mp hf b h)
  | some c => exact ⟨c, rfl⟩

theorem Live.drop_nodup {f : Live → Nat} (h : (live.map f).Nodup) (k : Nat) :
    ((Live.drop live k).map f).Nodup :=
  h.sublist (List.filter_sublist.map f)

end Live

namespace Plan

variable {P : Plan} {page : Size} {L : Layout} {b : Live}

theorem WF.of_taken (h : P.WF) {o n : Nat} (ht : Layout.Taken P.layout L o (fitSize n)) (hn : 0 < n)
    (x : Option Nat × Layout) :
    WF ⟨L, ⟨P.log.length, o, n⟩ :: P.live, P.log ++ [x]⟩ := by
  obtain ⟨k, hk, hs⟩ := ht.allocated
  refine ⟨ht.wf, ?_, ?_, ?_, ?_, ?_⟩
  · intro b hb
    rcases List.mem_cons.mp hb with rfl | hb
    · exact ⟨k, (hs _).mpr (.inl rfl), hk⟩
    · obtain ⟨j, hj, hf⟩ := h.owned b hb
      exact ⟨j, (hs _).mpr (.inr hj), hf⟩
  · intro p j hp
    rcases (hs _).mp hp with hx | hx
    · exact ⟨_, List.mem_cons_self, (Prod.mk.inj hx).1.symm⟩
    · obtain ⟨b, hb, hbp⟩ := h.covered p j hx
      exact ⟨b, List.mem_cons_of_mem _ hb, hbp⟩
  · refine List.nodup_cons.mpr ⟨fun ho => ?_, h.ptrs⟩
    obtain ⟨b, hb, rfl⟩ := List.mem_map.mp ho
    obtain ⟨j, hj, _⟩ := h.owned b hb
    exact ht.fresh j hj
  · refine List.nodup_cons.mpr ⟨fun ho => ?_, h.ids⟩
    obtain ⟨b, hb, he⟩ := List.mem_map.mp ho
    exact (h.old b hb).1.ne he
  · intro b hb
    rw [List.length_append, List.length_singleton]
    rcases List.mem_cons.mp hb with rfl | hb
    · exact ⟨Nat.lt_succ_self _, hn⟩
    · exact ⟨(h.old b hb).1.trans (Nat.lt_succ_self _), (h.old b hb).2⟩

theorem WF.of_free (h : P.WF) (hb : b ∈ P.live) :
    WF ⟨P.layout.free b.ptr, Live.drop P.live b.id, P.log⟩ := by
  obtain ⟨k, hk, _⟩ := h.owned b hb
  obtain ⟨hwf, _, hs⟩ := Layout.free_wf h.layout hk
  -- ids and pointers both determine a live block
  have hid : ∀ c ∈ P.live, c.id = b.id → c = b := fun c hc he =>
    List.inj_on_of_nodup_map h.ids hc hb he
  have hptr : ∀ c ∈ P.live, c.ptr = b.ptr → c = b := fun c hc he =>
    List.inj_on_of_nodup_map h.ptrs hc hb he
  refine ⟨hwf, ?_, ?_, Live.drop_nodup h.ptrs _, Live.drop_nodup h.ids _, ?_⟩
  · intro c hc
    obtain ⟨hc, hne⟩ := Live.mem_drop.mp hc
    obtain ⟨j, hj, hf⟩ := h.owned c hc
    exact ⟨j, (hs _).mpr ⟨hj, fun he => hne (by rw [hptr c hc he])⟩, hf⟩
  · intro p j hp
    obtain ⟨hp, hne⟩ := (hs _).mp hp
    obtain ⟨c, hc, rfl⟩ := h.covered p j hp
    exact ⟨c, Live.mem_drop.mpr ⟨hc, fun he => hne (by rw [hid c hc he])⟩, rfl⟩
  · intro c hc
    exact h.old c (Live.mem_drop.mp hc).1

theorem WF.log_append (h : P.WF) (x : Option Nat × Layout) :
    WF ⟨P.layout, P.live, P.log ++ [x]⟩ := by
  refine ⟨h.layout, h.owned, h.covered, h.ptrs, h.ids, fun b hb => ⟨?_, (h.old b hb).2⟩⟩
  rw [List.length_append, List.length_singleton]
  exact (h.old b hb).1.trans (Nat.lt_succ_self _)

theorem initial_wf (hp : 16 + page.1 ≤ maxHeap) : (initial page).WF :=
  ⟨Layout.initial_wf hp, by simp [initial], by simp [initial, Layout.initial], by simp [initial],
    by simp [initial], by simp [initial]⟩

theorem call_malloc (P : Plan) (n : Nat) :
    P.call page (.malloc n) = ⟨(P.layout.malloc page n).1,
      (P.layout.malloc page n).2.elim P.live fun o => ⟨P.log.length, o, n⟩ :: P.live,
      P.log ++ [((P.layout.malloc page n).2, (P.layout.malloc page n).1)]⟩ := rfl

theorem call_free {k : Nat} (hb : Live.find P.live k = some b) :
    P.call page (.free k) = ⟨P.layout.free b.ptr, Live.drop P.live k,
      P.log ++ [(none, P.layout.free b.ptr)]⟩ := by
  simp [call, hb]

theorem call_realloc {k n : Nat} (hb : Live.find P.live k = some b) :
    P.call page (.realloc k n) = ⟨(P.layout.realloc page b.ptr n).1,
      (P.layout.realloc page b.ptr n).2.elim P.live fun o =>
        ⟨P.log.length, o, n⟩ :: Live.drop P.live k,
      P.log ++ [((P.layout.realloc page b.ptr n).2, (P.layout.realloc page b.ptr n).1)]⟩ := by
  simp [call, hb]

theorem malloc_wf (h : P.WF) (n : Nat) : (P.call page (.malloc n)).WF := by
  rw [call_malloc]
  cases hr : (P.layout.malloc page n).2 with
  | none =>
    rw [Layout.malloc_none hr]
    exact h.log_append _
  | some o =>
    obtain ⟨hn, ht⟩ := Layout.malloc_some h.layout hr
    exact h.of_taken ht hn _

theorem realloc_wf (h : P.WF) {k : Nat} (hb : Live.find P.live k = some b) (n : Nat) :
    (P.call page (.realloc k n)).WF := by
  rw [call_realloc hb, Layout.realloc]
  obtain ⟨hbl, hbk⟩ := Live.find_some hb
  have hnone := @Layout.malloc_none P.layout page n
  have hsome : ∀ o, (P.layout.malloc page n).2 = some o → _ := fun o ho =>
    Layout.malloc_some h.layout ho
  cases hL : P.layout.malloc page n with
  | mk L r =>
    rw [hL] at hnone hsome
    cases r with
    | none =>
      obtain rfl := hnone rfl
      exact h.log_append _
    | some o =>
      obtain ⟨hn, ht⟩ := hsome o rfl
      have hne : P.log.length ≠ k := by
        have := (h.old b hbl).1
        omega
      have hf := (h.of_taken ht hn (some o, L.free b.ptr)).of_free (List.mem_cons_of_mem _ hbl)
      simpa [Live.drop, hbk, hne] using hf

theorem call_wf (h : P.WF) {q : Request} (hq : q.Allowed P.live) : (P.call page q).WF := by
  cases q with
  | malloc n => exact malloc_wf h n
  | free k =>
    obtain ⟨b, hb, hk⟩ := hq
    obtain ⟨c, hc⟩ := Live.find_of_mem hb hk
    obtain ⟨hcl, rfl⟩ := Live.find_some hc
    rw [call_free hc]
    exact (h.of_free hcl).log_append _
  | realloc k n =>
    obtain ⟨_, b, hb, hk⟩ := hq
    obtain ⟨c, hc⟩ := Live.find_of_mem hb hk
    exact realloc_wf h hc n

end Plan

end CsoMalloc
