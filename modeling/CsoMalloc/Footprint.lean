import CsoMalloc.TraceFormat
import Mathlib.Algebra.Order.BigOperators.Group.Finset

/-! How much of the address space an evaluation takes. Every `mm_init` calls
`mem_init`, which has a new arena allocated, and `mem_deinit` is called nowhere. -/

namespace CsoMalloc

/-- Intervals of one length that do not overlap take as much room as they are many. -/
theorem mul_le_of_apart {n len bound : Nat} {start : Nat → Nat}
    (hin : ∀ k < n, start k + len ≤ bound)
    (hapart : ∀ j k, j < k → k < n → start j + len ≤ start k ∨ start k + len ≤ start j) :
    n * len ≤ bound := by
  have hsub : (Finset.range n).biUnion (fun k => Finset.Ico (start k) (start k + len)) ⊆
      Finset.range bound := by
    intro x hx
    obtain ⟨k, hk, hx⟩ := Finset.mem_biUnion.mp hx
    have hk' := hin k (Finset.mem_range.mp hk)
    have hx' := Finset.mem_Ico.mp hx
    exact Finset.mem_range.mpr (by omega)
  have hdis : ∀ j ∈ Finset.range n, ∀ k ∈ Finset.range n, j ≠ k →
      Disjoint (Finset.Ico (start j) (start j + len)) (Finset.Ico (start k) (start k + len)) := by
    intro j hj k hk hne
    apply Finset.disjoint_left.mpr
    intro x hxj hxk
    have hj' := Finset.mem_Ico.mp hxj
    have hk' := Finset.mem_Ico.mp hxk
    rcases Nat.lt_or_gt_of_ne hne with h | h
    · have := hapart j k h (Finset.mem_range.mp hk)
      omega
    · have := hapart k j h (Finset.mem_range.mp hj)
      omega
  have hcard := Finset.card_le_card hsub
  rw [Finset.card_biUnion hdis] at hcard
  simpa using hcard

/-- What the C library promises of the first `n` arenas while none is freed: those
that are not `NULL` lie in the address space, and no two of them overlap. -/
structure Unfreed (arena : Nat → Nat) (n : Nat) : Prop where
  inside : ∀ k < n, arena k ≠ 0 → arena k + maxHeap ≤ 2 ^ 32
  apart : ∀ j k, j < k → k < n → arena j ≠ 0 → arena k ≠ 0 →
    arena j + maxHeap ≤ arena k ∨ arena k + maxHeap ≤ arena j

/-- The arenas that the evaluation of a trace takes: one to check it, and if it is
accepted one to measure it and ten to time it. -/
def Stats.arenas (st : Stats) : Nat := if st.valid = 0 then 1 else 12

section Arenas

variable {arena : Nat → Nat} {base pagesize i : Nat} {t : Trace} {S S' : Session}

theorem mmInit_arena {s : State} {r : State × Int} (h : mmInit base pagesize s = some r) :
    base ≠ 0 := by
  rintro rfl
  simp [mmInit, State.memInit] at h

theorem evalMmValid_arena {tracenum : Int} {d : Driver} {r : Driver × Int}
    (h : evalMmValid base pagesize t tracenum d = some r) : base ≠ 0 := by
  obtain ⟨_, hinit, _⟩ := Option.bind_eq_some_iff.mp h
  exact mmInit_arena hinit

theorem evalMmUtil_arena {u u' : Util} (h : evalMmUtil base pagesize t u = .ok u') : base ≠ 0 := by
  obtain ⟨_, hinit, _⟩ := bind_eq_ok.mp h
  exact mmInit_arena (orDiverge_eq_ok.mp hinit)

theorem evalMmSpeed_arena {x y : State × (Int → Nat)}
    (h : evalMmSpeed base pagesize t x = .ok y) : base ≠ 0 := by
  obtain ⟨_, hinit, _⟩ := bind_eq_ok.mp h
  exact mmInit_arena (orDiverge_eq_ok.mp hinit)

theorem ftimerGettod_calls {σ : Type} {f : Nat → σ → Except Halt σ} {n : Nat} {x y : σ}
    (h : ftimerGettod f n x = .ok y) : ∀ k < n, ∃ a b, f k a = .ok b := by
  induction n generalizing y with
  | zero => simp
  | succ n ih =>
    obtain ⟨z, hz, hy⟩ := bind_eq_ok.mp h
    intro k hk
    by_cases hkn : k = n
    · subst hkn
      exact ⟨z, y, hy⟩
    · exact ih hz k (by omega)

theorem evalTrace_arenas {fresh : (Int → Nat) × (Int → Nat)} {tracenum : Int} {st : Stats}
    (h : S.evalTrace arena pagesize fresh tracenum t = .ok (S', st)) :
    S'.arenas = S.arenas + st.arenas ∧ ∀ k, S.arenas ≤ k → k < S'.arenas → arena k ≠ 0 := by
  obtain ⟨⟨d, valid⟩, hv, h⟩ := bind_eq_ok.mp h
  have hcheck := evalMmValid_arena (orDiverge_eq_ok.mp hv)
  by_cases hz : valid = 0
  · simp only [hz, if_true] at h
    obtain ⟨rfl, rfl⟩ := Prod.mk.inj (Except.ok.inj h)
    refine ⟨rfl, fun k hk hlt => ?_⟩
    obtain rfl : k = S.arenas := by
      simp only at hlt
      omega
    exact hcheck
  · simp only [hz, if_false] at h
    obtain ⟨u, hu, h⟩ := bind_eq_ok.mp h
    obtain ⟨x, hx, h⟩ := bind_eq_ok.mp h
    obtain ⟨rfl, rfl⟩ := Prod.mk.inj (Except.ok.inj h)
    refine ⟨by simp [Stats.arenas, hz], fun k hk hlt => ?_⟩
    simp only at hlt
    by_cases h₀ : k = S.arenas
    · rw [h₀]
      exact hcheck
    · by_cases h₁ : k = S.arenas + 1
      · rw [h₁]
        exact evalMmUtil_arena hu
      · obtain ⟨a, b, hs⟩ := ftimerGettod_calls hx (k - (S.arenas + 2)) (by omega)
        rw [show S.arenas + 2 + (k - (S.arenas + 2)) = k by omega] at hs
        exact evalMmSpeed_arena hs

theorem evalFiles_arenas {supply : Nat → Supply} {files : List (List Char)} {stats : List Stats}
    (h : evalFiles arena pagesize supply i files S = .ok (S', stats)) :
    stats.length = files.length ∧ S'.arenas = S.arenas + (stats.map Stats.arenas).sum ∧
      ∀ k, S.arenas ≤ k → k < S'.arenas → arena k ≠ 0 := by
  induction files generalizing i S stats with
  | nil =>
    obtain ⟨rfl, rfl⟩ := Prod.mk.inj (Except.ok.inj h)
    exact ⟨rfl, rfl, fun k hk hlt => absurd hlt (by omega)⟩
  | cons text files ih =>
    obtain ⟨t, _, h⟩ := bind_eq_ok.mp h
    obtain ⟨⟨S₁, st⟩, he, h⟩ := bind_eq_ok.mp h
    obtain ⟨⟨S₂, rest⟩, hrest, h⟩ := bind_eq_ok.mp h
    obtain ⟨rfl, rfl⟩ := Prod.mk.inj (Except.ok.inj h)
    obtain ⟨hone, hne⟩ := evalTrace_arenas (mapError_eq_ok.mp he)
    obtain ⟨hlen, hsum, hrne⟩ := ih hrest
    refine ⟨by simp [hlen], by simp [hsum, hone, Nat.add_assoc], fun k hk hlt => ?_⟩
    by_cases hk₁ : k < S₁.arenas
    · exact hne k hk hk₁
    · exact hrne k (by omega) hlt

theorem sum_arenas (stats : List Stats) :
    (stats.map Stats.arenas).sum = stats.length + 11 * numCorrect stats := by
  rw [numCorrect_eq]
  induction stats with
  | nil => rfl
  | cons st stats ih =>
    rw [List.map_cons, List.sum_cons, ih, List.length_cons, List.countP_cons, Stats.arenas]
    by_cases hv : st.valid = 0
    · simp [hv]
      omega
    · simp [hv]
      omega

/-- An evaluation whose loop over the files ends, as it does if `main` comes to the
summary, still holds an arena of 20 MB for each file and eleven more for each trace
accepted, and there are no more than 204 such arenas in the address space. After
the `mem_init` of `main` itself, no evaluation accepts more than 16 traces. -/
theorem evaluation_arenas_fit {supply : Nat → Supply} {files : List (List Char)}
    {stats : List Stats} (hstart : ∀ k < S.arenas, arena k ≠ 0)
    (h : evalFiles arena pagesize supply i files S = .ok (S', stats))
    (hfree : Unfreed arena (S.arenas + files.length + 11 * numCorrect stats)) :
    S.arenas + files.length + 11 * numCorrect stats ≤ 204 ∧
      (1 ≤ S.arenas → numCorrect stats ≤ 16) := by
  obtain ⟨hlen, hsum, hne⟩ := evalFiles_arenas h
  rw [sum_arenas, hlen, ← Nat.add_assoc] at hsum
  have hheld : ∀ k < S'.arenas, arena k ≠ 0 := by
    intro k hk
    by_cases hks : k < S.arenas
    · exact hstart k hks
    · exact hne k (by omega) hk
  have hfree' : Unfreed arena S'.arenas := hsum ▸ hfree
  have hroom : S'.arenas * maxHeap ≤ 2 ^ 32 :=
    mul_le_of_apart (fun k hk => hfree'.inside k hk (hheld k hk))
      fun j k hjk hk => hfree'.apart j k hjk hk (hheld j (hjk.trans hk)) (hheld k hk)
  rw [maxHeap_eq] at hroom
  have hle : S'.arenas ≤ 204 := by omega
  have hcorrect : numCorrect stats ≤ files.length := by
    have := length_turnedDown stats 0
    omega
  exact ⟨by omega, fun h1 => by omega⟩

/-- Arenas that follow one another, as far as there is room for them. -/
def Env.row (k : Nat) : Env where
  base := 4096 + 20971520 * (k % 200)
  pageSize := 4096
  base_aligned := by omega
  base_pos := by omega
  base_high := by
    have := maxHeap_eq
    omega
  room := Env.small.room

theorem evaluation_arenas_fit_row :
    ∃ S' stats, evalFiles (fun k => (Env.row k).base) 4096 (fun _ => Supply.ample) 0
        ["20000\n1\n2\n1\na 0 16\nf 0\n".toList] ⟨default, [], [], 1⟩ = .ok (S', stats) ∧
      numCorrect stats = 1 ∧ 1 + 1 + 11 * numCorrect stats ≤ 204 := by
  have hfiles : List.Forall₂ Trace.SavedAs [freeTrace] ["20000\n1\n2\n1\na 0 16\nf 0\n".toList] :=
    .cons ⟨20000, 1, ⟨by decide, by decide⟩, ⟨by decide, by decide⟩, rfl⟩ .nil
  have hfree : freeTrace.Storable := ⟨by decide, by decide, by decide, by decide⟩
  obtain ⟨S', he, _⟩ := evalFiles_exact (E := Env.row) (fun _ => rfl) hfiles
    (List.forall_mem_singleton.mpr hfree)
    (show ∀ _ _ _, Supply.ample.malloc _ _ = true from fun _ _ _ => rfl) ⟨default, [], [], 1⟩ (i := 0)
  have hscore : [freeTrace].map (·.score (Env.row 0).page) = [⟨2, 1, some (16, 8216)⟩] := by decide
  rw [hscore] at he
  have hunfreed : Unfreed (fun k => (Env.row k).base) 13 := by
    have := maxHeap_eq
    refine ⟨fun k hk _ => ?_, fun j k hjk hk _ _ => ?_⟩
    · simp only [Env.row]
      omega
    · simp only [Env.row]
      omega
  exact ⟨S', _, he, rfl, (evaluation_arenas_fit (fun k _ => (Env.row k).base_pos.ne') he hunfreed).1⟩

end Arenas

end CsoMalloc
