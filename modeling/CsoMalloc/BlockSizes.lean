import CsoMalloc.Reallocation

/-! How much larger than its request a block can be. A block gets its size when
it is handed out and keeps it until it is given back. -/

namespace CsoMalloc

open Tiling

/-- Every block in use has the least size for its request, or one step more. -/
def Plan.Snug (P : Plan) : Prop :=
  ∀ b ∈ P.live, ∀ k, (b.ptr, k) ∈ spans true 16 P.layout.blocks →
    k = fitSize b.size ∨ k = fitSize b.size + 8

namespace Plan

variable {P : Plan} {page : Size} {q : Request} {n : Nat} {b : Live}

theorem Snug.malloc (h : P.Snug) (hwf : P.WF) (n : Nat) : (P.call page (.malloc n)).Snug := by
  rw [call_malloc]
  cases hr : (P.layout.malloc page n).2 with
  | none =>
    rw [Layout.malloc_none hr]
    exact h
  | some o =>
    obtain ⟨_, ht⟩ := Layout.malloc_some hwf.layout hr
    obtain ⟨j, _, hs⟩ := ht.allocated
    intro b hb k hk
    rcases List.mem_cons.mp hb with rfl | hb
    · exact Layout.malloc_size hwf.layout hr hk
    · rcases (hs _).mp hk with hx | hx
      · obtain ⟨i, hi, _⟩ := hwf.owned b hb
        exact absurd hi ((Prod.mk.inj hx).1 ▸ ht.fresh i)
      · exact h b hb k hx

theorem Snug.free (h : P.Snug) (hwf : P.WF) (hb : b ∈ P.live) (log : List (Option Nat × Layout)) :
    Snug ⟨P.layout.free b.ptr, Live.drop P.live b.id, log⟩ := by
  obtain ⟨j, hj, _⟩ := hwf.owned b hb
  obtain ⟨_, _, hs⟩ := Layout.free_wf hwf.layout hj
  intro c hc k hk
  exact h c (Live.mem_drop.mp hc).1 k ((hs _).mp hk).1

theorem Snug.realloc (h : P.Snug) (hwf : P.WF) {k : Nat} (hb : Live.find P.live k = some b) (n : Nat) :
    (P.call page (.realloc k n)).Snug := by
  obtain ⟨hbl, hbk⟩ := Live.find_some hb
  have hm : (P.call page (.malloc n)).Snug := h.malloc hwf n
  have hsome : ∀ o, (P.layout.malloc page n).2 = some o → _ := fun o ho =>
    Layout.malloc_some hwf.layout ho
  rw [call_malloc] at hm
  rw [call_realloc hb, Layout.realloc]
  cases hL : P.layout.malloc page n with
  | mk L r =>
    rw [hL] at hm hsome
    cases r with
    | none => exact hm
    | some o =>
      obtain ⟨hn, ht⟩ := hsome o rfl
      have hne : P.log.length ≠ k := by
        have := (hwf.old b hbl).1
        omega
      have hf := Snug.free hm (hwf.of_taken ht hn (some o, L)) (List.mem_cons_of_mem _ hbl) []
      intro c hc
      refine hf c ?_
      simpa [Live.drop, hbk, hne] using hc

theorem Snug.call (h : P.Snug) (hwf : P.WF) (hq : q.Allowed P.live) : (P.call page q).Snug := by
  cases q with
  | malloc n => exact h.malloc hwf n
  | free k =>
    obtain ⟨b, hb, hk⟩ := hq
    obtain ⟨c, hc⟩ := Live.find_of_mem hb hk
    obtain ⟨hcl, rfl⟩ := Live.find_some hc
    rw [call_free hc]
    exact h.free hwf hcl _
  | realloc k n =>
    obtain ⟨_, b, hb, hk⟩ := hq
    obtain ⟨c, hc⟩ := Live.find_of_mem hb hk
    exact h.realloc hwf hc n

/-- A block that is live before and after a call keeps its size. -/
theorem call_keeps_span (hwf : P.WF) (hq : q.Allowed P.live) (hb : b ∈ P.live)
    (hb' : b ∈ (P.call page q).live) {k : Nat} (hk : (b.ptr, k) ∈ spans true 16 P.layout.blocks) :
    (b.ptr, k) ∈ spans true 16 (P.call page q).layout.blocks := by
  have hmalloc : ∀ n o, (P.layout.malloc page n).2 = some o →
      (b.ptr, k) ∈ spans true 16 (P.layout.malloc page n).1.blocks := by
    intro n o ho
    obtain ⟨_, _, hs⟩ := (Layout.malloc_some hwf.layout ho).2.allocated
    exact (hs _).mpr (.inr hk)
  -- a block other than the one given back has another pointer
  have hother : ∀ {j : Nat} {c : Live}, Live.find P.live j = some c → b.id ≠ j → b.ptr ≠ c.ptr := by
    intro j c hc hne he
    obtain ⟨hcl, rfl⟩ := Live.find_some hc
    exact hne (by rw [List.inj_on_of_nodup_map hwf.ptrs hb hcl he])
  cases q with
  | malloc n =>
    rw [call_malloc]
    cases hr : (P.layout.malloc page n).2 with
    | none =>
      rw [Layout.malloc_none hr]
      exact hk
    | some o => exact hmalloc n o hr
  | free j =>
    obtain ⟨c, hc, hcj⟩ := hq
    obtain ⟨d, hd⟩ := Live.find_of_mem hc hcj
    obtain ⟨i, hi, _⟩ := hwf.owned d (Live.find_some hd).1
    rw [call_free hd] at hb' ⊢
    exact ((Layout.free_wf hwf.layout hi).2.2 _).mpr ⟨hk, hother hd (Live.mem_drop.mp hb').2⟩
  | realloc j n =>
    obtain ⟨_, c, hc, hcj⟩ := hq
    obtain ⟨d, hd⟩ := Live.find_of_mem hc hcj
    obtain ⟨i, hi, _⟩ := hwf.owned d (Live.find_some hd).1
    have hnone := @Layout.malloc_none P.layout page n
    have hsome : ∀ o, (P.layout.malloc page n).2 = some o → _ := fun o ho =>
      (Layout.malloc_some hwf.layout ho).2
    have hmal := hmalloc n
    rw [call_realloc hd, Layout.realloc] at hb' ⊢
    cases hL : P.layout.malloc page n with
    | mk L r =>
      rw [hL] at hnone hsome hmal hb'
      cases r with
      | none =>
        obtain rfl := hnone rfl
        exact hk
      | some o =>
        have ht := hsome o rfl
        obtain ⟨_, _, hs⟩ := ht.allocated
        have hne : b.id ≠ j := by
          rcases List.mem_cons.mp hb' with rfl | hb'
          · have := (hwf.old _ hb).1
            exact absurd this (Nat.lt_irrefl _)
          · exact (Live.mem_drop.mp hb').2
        exact ((Layout.free_wf ht.wf ((hs _).mpr (.inr hi))).2.2 _).mpr
          ⟨hmal o rfl, hother hd hne⟩

end Plan

section Runs

variable {E : Env} {rs : List Request} {w w' : World} {q : Request} {b : Live}

theorem Run.snug (h : Run E rs w) : (Plan.run E.page rs).Snug := by
  induction h with
  | init => exact fun b hb => by cases hb
  | write _ _ ih => exact ih
  | call h hq _ ih =>
    rw [Plan.run_append]
    exact ih.call h.matches.2 (h.matches.1.allowed_iff.mp hq)

theorem Run.live_size (h : Run E rs w) (hb : b ∈ w.live) :
    ∃ o k, b.ptr = E.base + o ∧ (o, k) ∈ spans true 16 (Plan.run E.page rs).layout.blocks ∧
      w.heap.getThissize b.ptr = k ∧ (k = fitSize b.size ∨ k = fitSize b.size + 8) := by
  obtain ⟨hm, hwf⟩ := h.matches
  rw [hm.live] at hb
  obtain ⟨c, hc, rfl⟩ := List.mem_map.mp hb
  obtain ⟨k, hk, _⟩ := hwf.owned c hc
  exact ⟨c.ptr, k, rfl, hk, hm.heap.image.size_eq hwf.layout hk, h.snug c hc k hk⟩

/-- After every operation of every run the header size of a live block is the
least one that fits its request, at least 16, or 8 more; and no operation
changes the size of a block that stays live. -/
theorem internal_fragmentation_bounded (h : Run E rs w) :
    (∀ b ∈ w.live, ∃ A, IsLeast { k | 8 ∣ k ∧ b.size + wsize ≤ k } A ∧
      (w.heap.getThissize b.ptr = max 16 A ∨ w.heap.getThissize b.ptr = max 16 A + 8)) ∧
    ∀ q : Request, q.Allowed w.live → ∀ w', w.call q = some w' → ∀ b ∈ w.live, b ∈ w'.live →
      w'.heap.getThissize b.ptr = w.heap.getThissize b.ptr := by
  constructor
  · intro b hb
    obtain ⟨_, k, _, _, hsize, hk⟩ := h.live_size hb
    refine ⟨8 * ((b.size + 11) / 8), ⟨⟨Dvd.intro _ rfl, ?_⟩, ?_⟩, ?_⟩
    · simp only [wsize]
      omega
    · rintro j ⟨h8, hj⟩
      simp only [wsize] at hj
      omega
    · rw [hsize]
      exact hk
  · intro q hq w' hw' b hb hb'
    obtain ⟨hm, hwf⟩ := h.matches
    have h' := h.call hq hw'
    obtain ⟨o, k, ho, hk, hsize, _⟩ := h.live_size hb
    obtain ⟨hm', hwf'⟩ := h'.matches
    rw [hm.live] at hb
    obtain ⟨c, hc, rfl⟩ := List.mem_map.mp hb
    have hc' : c ∈ ((Plan.run E.page rs).call E.page q).live := by
      rw [hm'.live, Plan.run_append] at hb'
      obtain ⟨d, hd, hdc⟩ := List.mem_map.mp hb'
      have hcd : d = c := by
        cases d
        cases c
        simpa [Live.shift] using hdc
      exact hcd ▸ hd
    obtain rfl : c.ptr = o := Nat.add_left_cancel ho
    have hk' := Plan.call_keeps_span hwf (hm.allowed_iff.mp hq) hc hc' hk
    rw [← Plan.run_append] at hk'
    rw [hsize, ho, hm'.heap.image.size_eq hwf'.layout hk']

theorem internal_fragmentation_bounded_small :
    ∃ w, Run Env.small [.malloc 24, .malloc 4000, .free 0, .realloc 1 9000] w ∧
      ∀ b ∈ w.live, ∃ A, IsLeast { k | 8 ∣ k ∧ b.size + wsize ≤ k } A ∧
        (w.heap.getThissize b.ptr = max 16 A ∨ w.heap.getThissize b.ptr = max 16 A + 8) := by
  obtain ⟨w, hw⟩ := exists_run Env.small
    [.malloc 24, .malloc 4000, .free 0, .realloc 1 9000] (by decide)
  exact ⟨w, hw, (internal_fragmentation_bounded hw).1⟩

end Runs

end CsoMalloc
