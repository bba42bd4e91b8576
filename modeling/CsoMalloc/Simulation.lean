import CsoMalloc.Plans

/-! Every run follows the plan of its requests, whatever is in memory. -/

namespace CsoMalloc

open ByteMemory Tiling

def Live.shift (base : Nat) (b : Live) : Live := { b with ptr := base + b.ptr }

/-- The world is the plan placed at the base of the heap. -/
structure Matches (E : Env) (w : World) (P : Plan) : Prop where
  heap : Refines E w.heap P.layout
  live : w.live = P.live.map (Live.shift E.base)
  log : List.Forall₂ (fun e x => e.1 = E.ptr x.1 ∧ Refines E e.2 x.2) w.log P.log

theorem Live.find_shift (live : List Live) (base k : Nat) :
    Live.find (live.map (Live.shift base)) k = (Live.find live k).map (Live.shift base) := by
  simp only [Live.find, List.find?_map]
  rfl

theorem Live.drop_shift (live : List Live) (base k : Nat) :
    Live.drop (live.map (Live.shift base)) k = (Live.drop live k).map (Live.shift base) := by
  simp only [Live.drop, List.filter_map]
  rfl

variable {E : Env} {w w' : World} {P : Plan} {q : Request}

namespace Matches

theorem log_length (h : Matches E w P) : w.log.length = P.log.length := h.log.length_eq

theorem allowed_iff (h : Matches E w P) : q.Allowed w.live ↔ q.Allowed P.live := by
  have hex : ∀ k, (∃ b ∈ w.live, b.id = k) ↔ ∃ b ∈ P.live, b.id = k := by
    intro k
    simp [h.live, Live.shift]
  cases q with
  | malloc n => exact Iff.rfl
  | free k => exact hex k
  | realloc k n => exact and_congr_right fun _ => hex k

theorem live_span (h : Matches E w P) (hwf : P.WF) {b : Live} (hb : b ∈ w.live) :
    ∃ o k, b.ptr = E.base + o ∧ (o, k) ∈ spans true 16 P.layout.blocks ∧ b.size + 4 ≤ k ∧
      0 < b.size := by
  rw [h.live] at hb
  obtain ⟨c, hc, rfl⟩ := List.mem_map.mp hb
  obtain ⟨k, hk, hf⟩ := hwf.owned c hc
  have := fitSize_ge c.size
  exact ⟨c.ptr, k, rfl, hk, by simp only [Live.shift]; omega, (hwf.old c hc).2⟩

theorem extend (h : Matches E w P) {s : State} {L : Layout} (hr : Refines E s L) (r : Option Nat)
    (live : List Live) (n : Nat) :
    Matches E ⟨s, if E.ptr r = 0 then w.live
        else ⟨w.log.length, E.ptr r, n⟩ :: live.map (Live.shift E.base), w.log ++ [(E.ptr r, s)]⟩
      ⟨L, r.elim P.live fun o => ⟨P.log.length, o, n⟩ :: live, P.log ++ [(r, L)]⟩ := by
  refine ⟨hr, ?_, List.rel_append h.log (.cons ⟨rfl, hr⟩ .nil)⟩
  cases r with
  | none => exact h.live
  | some o =>
    have hz : E.base + o ≠ 0 := by have := E.base_pos; omega
    simp only [Env.ptr, if_neg hz, h.log_length, Option.elim_some, List.map_cons, Live.shift]

theorem malloc (h : Matches E w P) (hwf : P.WF) {n : Nat} (hn : n ≤ maxHeap) :
    ∃ w', w.call (.malloc n) = some w' ∧ Matches E w' (P.call E.page (.malloc n)) ∧
      Keeps E P.layout w.heap.mem w'.heap.mem := by
  obtain ⟨s, he, hr, hk⟩ := h.heap.malloc hwf.layout hn
  have hm := h.extend hr (P.layout.malloc E.page n).2 P.live n
  rw [← h.live] at hm
  refine ⟨_, ?_, hm, hk⟩
  simp only [World.call, he, Option.bind_eq_bind, Option.bind_some]
  rfl

theorem free (h : Matches E w P) (hwf : P.WF) {k : Nat} {b : Live}
    (hb : Live.find P.live k = some b) :
    ∃ w', w.call (.free k) = some w' ∧ Matches E w' (P.call E.page (.free k)) ∧
      Keeps E (P.layout.free b.ptr) w.heap.mem w'.heap.mem := by
  obtain ⟨j, hj, _⟩ := hwf.owned b (Live.find_some hb).1
  obtain ⟨s, he, hr, hk⟩ := h.heap.free hwf.layout hj
  refine ⟨⟨s, Live.drop w.live k, w.log ++ [(0, s)]⟩, ?_, ?_, hk⟩
  · have hf : Live.find w.live k = some (Live.shift E.base b) := by
      rw [h.live, Live.find_shift, hb]
      rfl
    have he' : mmFree w.heap (Live.shift E.base b).ptr = some s := he
    rw [World.call, hf, Option.bind_eq_bind, Option.bind_some, he']
    rfl
  · rw [Plan.call_free hb]
    refine ⟨hr, ?_, List.rel_append h.log (.cons ⟨rfl, hr⟩ .nil)⟩
    rw [h.live, Live.drop_shift]

theorem realloc (h : Matches E w P) (hwf : P.WF) {k n : Nat} {b : Live}
    (hb : Live.find P.live k = some b) (hn : n ≤ maxHeap) :
    ∃ w', w.call (.realloc k n) = some w' ∧ Matches E w' (P.call E.page (.realloc k n)) ∧
      ∀ p j, (p, j) ∈ spans true 16 P.layout.blocks → p ≠ b.ptr → ∀ a, p ≤ a → a + 4 < p + j →
        w'.heap.mem (E.base + a) = w.heap.mem (E.base + a) := by
  obtain ⟨j, hj, _⟩ := hwf.owned b (Live.find_some hb).1
  obtain ⟨s, he, hr, hk, _⟩ := h.heap.realloc hwf.layout hj hn
  have hm := h.extend hr (P.layout.realloc E.page b.ptr n).2 (Live.drop P.live k) n
  rw [← Live.drop_shift, ← h.live] at hm
  refine ⟨_, ?_, Plan.call_realloc hb ▸ hm, hk⟩
  have hf : Live.find w.live k = some (Live.shift E.base b) := by
    rw [h.live, Live.find_shift, hb]
    rfl
  have he' : mmRealloc w.heap (Live.shift E.base b).ptr n =
      some (s, E.ptr (P.layout.realloc E.page b.ptr n).2) := he
  rw [World.call, hf, Option.bind_eq_bind, Option.bind_some, he']
  rfl

theorem frame (h : Matches E w P) (hwf : P.WF) {m : Mem} {b : Live} (hb : b ∈ w.live)
    (hm : ∀ p j, (p, j) ∈ spans true 16 P.layout.blocks → E.base + p = b.ptr → ∀ a, p ≤ a →
      a + 4 < p + j → m (E.base + a) = w.heap.mem (E.base + a)) :
    ∀ i < b.size, m (b.ptr + i) = w.heap.mem (b.ptr + i) := by
  intro i hi
  obtain ⟨o, k, ho, hk, hs, _⟩ := h.live_span hwf hb
  rw [ho, Nat.add_assoc]
  exact hm o k hk ho.symm (o + i) (by omega) (by omega)

/-- Every allowed call returns, follows the plan, and leaves the requested
bytes of all live blocks but its argument alone. -/
theorem call (h : Matches E w P) (hwf : P.WF) (hq : q.Allowed w.live) :
    ∃ w', w.call q = some w' ∧ Matches E w' (P.call E.page q) ∧
      ∀ b ∈ w.live, q.arg ≠ some b.id → ∀ i < b.size,
        w'.heap.mem (b.ptr + i) = w.heap.mem (b.ptr + i) := by
  have hq' := h.allowed_iff.mp hq
  -- the pointer of another live block is not that of the argument
  have hother : ∀ {k : Nat} {c b : Live}, Live.find P.live k = some c → b ∈ w.live → k ≠ b.id →
      ∀ p, E.base + p = b.ptr → p ≠ c.ptr := by
    rintro k c b hc hb hne p hp rfl
    rw [h.live] at hb
    obtain ⟨d, hd, rfl⟩ := List.mem_map.mp hb
    obtain ⟨hcl, rfl⟩ := Live.find_some hc
    have he : c = d := List.inj_on_of_nodup_map hwf.ptrs hcl hd (Nat.add_left_cancel hp)
    exact hne (by rw [he]; rfl)
  cases q with
  | malloc n =>
    obtain ⟨w', he, hm, hk⟩ := h.malloc hwf hq
    exact ⟨w', he, hm, fun b hb _ => h.frame hwf hb fun p j hp _ => hk p j hp⟩
  | free k =>
    obtain ⟨c, hc, hck⟩ := hq'
    obtain ⟨d, hd⟩ := Live.find_of_mem hc hck
    obtain ⟨w', he, hm, hk⟩ := h.free hwf hd
    refine ⟨w', he, hm, fun b hb hne => h.frame hwf hb fun p j hp hpb => hk p j ?_⟩
    obtain ⟨i, hi, _⟩ := hwf.owned d (Live.find_some hd).1
    exact ((Layout.free_wf hwf.layout hi).2.2 _).mpr
      ⟨hp, hother hd hb (fun e => hne (congrArg some e)) p hpb⟩
  | realloc k n =>
    obtain ⟨hn, c, hc, hck⟩ := hq'
    obtain ⟨d, hd⟩ := Live.find_of_mem hc hck
    obtain ⟨w', he, hm, hk⟩ := h.realloc hwf hd hn
    refine ⟨w', he, hm, fun b hb hne => h.frame hwf hb fun p j hp hpb => hk p j hp ?_⟩
    exact hother hd hb (fun e => hne (congrArg some e)) p hpb

theorem write (h : Matches E w P) (hwf : P.WF) {m : Mem}
    (hm : ∀ a, (∀ b ∈ w.live, a < b.ptr ∨ b.ptr + b.size ≤ a) → m a = w.heap.mem a) :
    Matches E (w.write m) P := by
  refine ⟨h.heap.write hwf.layout fun a ha => hm a fun b hb => ?_, h.live, h.log⟩
  obtain ⟨o, k, ho, hk, hs, _⟩ := h.live_span hwf hb
  have := ha o k hk
  omega

end Matches

theorem Plan.run_append (page : Size) (rs : List Request) (q : Request) :
    Plan.run page (rs ++ [q]) = (Plan.run page rs).call page q := by
  simp [Plan.run]

theorem Run.matches {rs : List Request} (h : Run E rs w) :
    Matches E w (Plan.run E.page rs) ∧ (Plan.run E.page rs).WF := by
  induction h with
  | @init s s' he =>
    obtain ⟨t, ht, hr⟩ := mmInit_refines E s
    obtain ⟨rfl, _⟩ := Prod.mk.inj (Option.some.inj (he.symm.trans ht))
    have hroom : 16 + E.page.1 ≤ maxHeap := Nat.add_comm _ 16 ▸ E.room
    exact ⟨⟨hr, rfl, .nil⟩, Plan.initial_wf hroom⟩
  | write _ hm ih => exact ⟨ih.1.write ih.2 hm, ih.2⟩
  | @call rs q w w' _ hq he ih =>
    obtain ⟨t, ht, hmt, _⟩ := ih.1.call ih.2 hq
    obtain rfl := Option.some.inj (he.symm.trans ht)
    rw [Plan.run_append]
    exact ⟨hmt, Plan.call_wf ih.2 (ih.1.allowed_iff.mp hq)⟩

theorem Run.realloc_copies {rs : List Request} (h : Run E rs w) {b : Live} (hb : b ∈ w.live)
    {n p : Nat} (hn : n ≤ maxHeap) {s : State} (he : mmRealloc w.heap b.ptr n = some (s, p))
    (hp : p ≠ 0) : ∀ i, i < n → i < b.size → s.mem (p + i) = w.heap.mem (b.ptr + i) := by
  obtain ⟨hm, hwf⟩ := h.matches
  obtain ⟨o, k, ho, hk, hs, _⟩ := hm.live_span hwf hb
  obtain ⟨t, ht, _, _, hcopy⟩ := hm.heap.realloc hwf.layout hk hn
  rw [ho, ht] at he
  obtain ⟨rfl, rfl⟩ := Prod.mk.inj (Option.some.inj he)
  intro i hi hib
  cases hr : ((Plan.run E.page rs).layout.realloc E.page o n).2 with
  | none => simp [hr, Env.ptr] at hp
  | some q =>
    rw [ho, Nat.add_assoc, Env.ptr, Nat.add_assoc]
    exact hcopy q hr i hi (by omega)

theorem Run.continue {rs qs : List Request} (h : Run E rs w)
    (hq : (Plan.run E.page rs).Admits E.page qs) : ∃ w', Run E (rs ++ qs) w' := by
  induction qs generalizing rs w with
  | nil => exact ⟨w, by simpa using h⟩
  | cons q qs ih =>
    obtain ⟨hm, hwf⟩ := h.matches
    obtain ⟨w₁, he, _⟩ := hm.call hwf (hm.allowed_iff.mpr hq.1)
    have h₁ := Run.call h (hm.allowed_iff.mpr hq.1) he
    obtain ⟨w', hw'⟩ := ih h₁ (by rw [Plan.run_append]; exact hq.2)
    exact ⟨w', by simpa using hw'⟩

theorem exists_run (E : Env) (qs : List Request) (hq : (Plan.initial E.page).Admits E.page qs) :
    ∃ w, Run E qs w := by
  obtain ⟨s, hs, _⟩ := mmInit_refines E default
  exact (Run.init hs).continue hq

/-- A heap with 4 KB pages, for the runs given as examples. -/
def Env.small : Env := ⟨4096, 4096, by decide, by decide, by decide, by decide⟩

end CsoMalloc
