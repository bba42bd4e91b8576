import CsoMalloc.KBest

/-! The K-best scheme of fcyc.c. Samples are compared and nothing else, so they may
be of any linear order; `close` stands for the test of `has_converged`, which the
source computes in floating point. -/

namespace CsoMalloc

open KBest

structure Sampler (α : Type) where
  values : Nat → α
  samplecount : Nat

section Sampling

variable {α : Type} [LinearOrder α] (kbest : Nat)

def initSampler [Zero α] : Sampler α := ⟨fun _ => 0, 0⟩

def addSample (s : Sampler α) (val : α) : Sampler α :=
  let (pos, values) :=
    if s.samplecount < kbest then (s.samplecount, Function.update s.values s.samplecount val)
    else if val < s.values (kbest - 1) then (kbest - 1, Function.update s.values (kbest - 1) val)
    else (0, s.values)
  ⟨sift values pos, s.samplecount + 1⟩

variable (close : α → α → Bool)

def hasConverged (s : Sampler α) : Bool :=
  s.samplecount ≥ kbest && close (s.values 0) (s.values (kbest - 1))

variable {σ : Type} (maxsamples : Nat) (measure : σ → α × σ)

/-- The loop of `fcyc`. A call of `measure` starts the counter, calls `f` and reads
the counter. -/
def fcycLoop (x : σ) (s : Sampler α) : σ × Sampler α :=
  let cyc := measure x
  let s' := addSample kbest s cyc.1
  if hasConverged kbest close s' = false ∧ s'.samplecount < maxsamples then fcycLoop cyc.2 s'
  else (cyc.2, s')
termination_by maxsamples - s.samplecount
decreasing_by
  have hcount : (addSample kbest s (measure x).1).samplecount = s.samplecount + 1 := rfl
  have hlt : (addSample kbest s (measure x).1).samplecount < maxsamples := And.right ‹_›
  omega

def fcyc [Zero α] (x : σ) : α × σ :=
  let r := fcycLoop kbest close maxsamples measure x initSampler
  (r.2.values 0, r.1)

/-- The first `n` samples, and the state behind them. -/
def samples : Nat → σ → List α × σ
  | 0, x => ([], x)
  | n + 1, x => ((samples n x).1 ++ [(measure (samples n x).2).1], (measure (samples n x).2).2)

end Sampling

theorem length_samples {α σ : Type} (measure : σ → α × σ) (n : Nat) (x : σ) :
    (samples measure n x).1.length = n := by
  induction n with
  | zero => rfl
  | succ n ih => rw [samples, List.length_append, ih, List.length_singleton]

section Best

variable {α : Type} [LinearOrder α] {kbest : Nat} {s : Sampler α} {xs : List α} {val : α}

/-- The array holds the least samples so far. -/
structure Sampled (kbest : Nat) (xs : List α) (s : Sampler α) : Prop where
  count : s.samplecount = xs.length
  values : stretch s.values (min kbest xs.length) = lowest kbest xs

theorem Sampled.init [Zero α] : Sampled kbest ([] : List α) initSampler :=
  ⟨rfl, by simp [stretch, lowest]⟩

theorem Sampled.sorted (h : Sampled kbest xs s) :
    (stretch s.values (min kbest xs.length)).Pairwise (· ≤ ·) := by
  obtain ⟨bs, _, hs⟩ := exists_split kbest xs
  rw [h.values]
  exact (List.pairwise_append.mp hs).1

theorem Sampled.add (hk : 1 ≤ kbest) (h : Sampled kbest xs s) (val : α) :
    Sampled kbest (xs ++ [val]) (addSample kbest s val) := by
  have hsorted := h.sorted
  have hvalues := h.values
  refine ⟨by rw [List.length_append, List.length_singleton, ← h.count]; rfl, ?_⟩
  rw [List.length_append, List.length_singleton, addSample]
  by_cases hroom : xs.length < kbest
  · rw [min_eq_right (by omega)] at hsorted hvalues
    have hsame : stretch (Function.update s.values xs.length val) xs.length = stretch s.values xs.length :=
      stretch_update val le_rfl
    obtain ⟨hs, hp⟩ := stretch_sift (hsame.symm ▸ hsorted)
    rw [hsame, Function.update_self, hvalues] at hp
    rw [min_eq_right (by omega), h.count, if_pos hroom]
    exact (lowest_snoc_of_lt hroom hs hp).symm
  · have hfull : (lowest kbest xs).length = kbest := by rw [length_lowest, min_eq_left (by omega)]
    obtain ⟨k, rfl⟩ : ∃ k, kbest = k + 1 := ⟨kbest - 1, by omega⟩
    rw [min_eq_left (by omega), stretch_succ] at hsorted hvalues
    rw [min_eq_left (by omega), h.count, if_neg hroom, Nat.add_sub_cancel]
    by_cases hval : val < s.values k
    · have hsame : stretch (Function.update s.values k val) k = stretch s.values k :=
        stretch_update val le_rfl
      obtain ⟨hs, hp⟩ := stretch_sift (hsame.symm ▸ (List.pairwise_append.mp hsorted).1)
      rw [hsame, Function.update_self] at hp
      rw [if_pos hval]
      exact (lowest_snoc_replace hfull hvalues.symm hval hs hp).symm
    · rw [if_neg hval]
      rw [lowest_snoc_of_le hfull hvalues.symm (not_lt.mp hval), ← hvalues, ← stretch_succ]
      rfl

/-- The least sample and the one of rank `kbest` are close. -/
def Converged (kbest : Nat) (close : α → α → Bool) (xs : List α) : Prop :=
  ∃ a b, (xs.insertionSort (· ≤ ·))[0]? = some a ∧ (xs.insertionSort (· ≤ ·))[kbest - 1]? = some b ∧
    close a b = true

theorem Sampled.getElem? (h : Sampled kbest xs s) {i : Nat} (hi : i < min kbest xs.length) :
    (xs.insertionSort (· ≤ ·))[i]? = some (s.values i) := by
  have hget := congrArg (fun l => l[i]?) h.values
  simp only [stretch, lowest] at hget
  rw [List.getElem?_take_of_lt (by omega)] at hget
  rw [← hget, List.getElem?_map, List.getElem?_range hi]
  rfl

theorem Sampled.hasConverged_iff (hk : 1 ≤ kbest) (h : Sampled kbest xs s) (close : α → α → Bool) :
    hasConverged kbest close s = true ↔ Converged kbest close xs := by
  rw [hasConverged, Bool.and_eq_true, decide_eq_true_eq, h.count]
  constructor
  · rintro ⟨hlen, hc⟩
    exact ⟨_, _, h.getElem? (by omega), h.getElem? (by omega), hc⟩
  · rintro ⟨a, b, ha, hb, hc⟩
    have hlen := (List.getElem?_eq_some_iff.mp hb).1
    rw [List.length_insertionSort] at hlen
    rw [h.getElem? (by omega)] at ha hb
    rw [Option.some.inj ha, Option.some.inj hb]
    exact ⟨by omega, hc⟩

theorem Sampled.isLeast (hk : 1 ≤ kbest) (h : Sampled kbest xs s) (hne : xs ≠ []) :
    IsLeast { c | c ∈ xs } (s.values 0) := by
  have hpos := List.length_pos_of_ne_nil hne
  obtain ⟨h0, hget⟩ := List.getElem?_eq_some_iff.mp (h.getElem? (show 0 < _ by omega))
  have hmem : s.values 0 ∈ xs.insertionSort (· ≤ ·) := hget ▸ List.getElem_mem h0
  refine ⟨(List.mem_insertionSort (· ≤ ·)).mp hmem, fun c hc => ?_⟩
  obtain ⟨j, hj, rfl⟩ := List.getElem_of_mem ((List.mem_insertionSort (· ≤ ·)).mpr hc)
  rw [← hget]
  rcases Nat.eq_zero_or_pos j with rfl | hpos
  · exact le_rfl
  · exact List.pairwise_iff_getElem.mp (List.pairwise_insertionSort (· ≤ ·) xs) 0 j h0 hj hpos

variable {σ : Type} {close : α → α → Bool} {maxsamples : Nat} {measure : σ → α × σ}

theorem fcycLoop_spec (hk : 1 ≤ kbest) (x : σ) {m : Nat} {s : Sampler α}
    (h : Sampled kbest (samples measure m x).1 s) :
    ∃ n s', fcycLoop kbest close maxsamples measure (samples measure m x).2 s =
        ((samples measure n x).2, s') ∧ Sampled kbest (samples measure n x).1 s' ∧
      m < n ∧ n ≤ max (m + 1) maxsamples ∧
      (Converged kbest close (samples measure n x).1 ∨ maxsamples ≤ n) ∧
      ∀ j, m < j → j < n → ¬ Converged kbest close (samples measure j x).1 := by
  induction hd : maxsamples - m using Nat.strong_induction_on generalizing m s with
  | h d ih =>
    have hadd : Sampled kbest (samples measure (m + 1) x).1
        (addSample kbest s (measure (samples measure m x).2).1) := h.add hk _
    have hcount := hadd.count.trans (length_samples measure (m + 1) x)
    have hconv := hadd.hasConverged_iff hk close
    rw [fcycLoop]
    by_cases hgo : hasConverged kbest close (addSample kbest s (measure (samples measure m x).2).1) =
        false ∧ m + 1 < maxsamples
    · have hnot : ¬ Converged kbest close (samples measure (m + 1) x).1 := fun hc => by
        rw [hconv.mpr hc] at hgo
        exact absurd hgo.1 (by simp)
      obtain ⟨n, s', he, hs', hlt, hle, hstop, hbefore⟩ := ih (maxsamples - (m + 1)) (by omega) hadd rfl
      refine ⟨n, s', ?_, hs', by omega, by omega, hstop, fun j hj hjn => ?_⟩
      · simp only [hcount]
        rw [if_pos hgo]
        exact he
      · rcases Nat.eq_or_lt_of_le hj with rfl | hj
        · exact hnot
        · exact hbefore j hj hjn
    · refine ⟨m + 1, _, ?_, hadd, by omega, by omega, ?_, fun j hj hjn => by omega⟩
      · simp only [hcount]
        rw [if_neg hgo]
        rfl
      · by_cases hlt : m + 1 < maxsamples
        · refine .inl (hconv.mp ?_)
          simpa [hlt] using hgo
        · exact .inr (by omega)

/-- `fcyc` calls `f` until the `kbest` least samples have converged for the first
time or `maxsamples` are taken, and returns the least of the samples. -/
theorem fcyc_returns_least [Zero α] (hk : 1 ≤ kbest) (close : α → α → Bool) (maxsamples : Nat)
    (measure : σ → α × σ) (x : σ) :
    ∃ n, 1 ≤ n ∧ n ≤ max 1 maxsamples ∧
      (fcyc kbest close maxsamples measure x).2 = (samples measure n x).2 ∧
      IsLeast { c | c ∈ (samples measure n x).1 } (fcyc kbest close maxsamples measure x).1 ∧
      (Converged kbest close (samples measure n x).1 ∨ maxsamples ≤ n) ∧
      ∀ j, 1 ≤ j → j < n → ¬ Converged kbest close (samples measure j x).1 := by
  have hinit : Sampled kbest (samples measure 0 x).1 (initSampler : Sampler α) := Sampled.init
  obtain ⟨n, s, he, hs, hlt, hle, hstop, hbefore⟩ := fcycLoop_spec hk x hinit
  have he' : fcycLoop kbest close maxsamples measure x initSampler = ((samples measure n x).2, s) := he
  have hne : (samples measure n x).1 ≠ [] :=
    List.ne_nil_of_length_pos (by rw [length_samples]; omega)
  rw [fcyc, he']
  exact ⟨n, hlt, by omega, rfl, hs.isLeast hk hne, hstop, hbefore⟩

/-- A second sample that is below the others by one. -/
def dip (x : Nat) : Nat × Nat := (if x = 1 then 50 else 51, x + 1)

theorem fcyc_returns_least_dip : fcyc 3 (fun a b => decide (b ≤ a + 1)) 20 dip 0 = (50, 3) := by
  obtain ⟨n, _, _, hx, hleast, hstop, hbefore⟩ :=
    fcyc_returns_least (show 1 ≤ 3 by decide) (fun a b => decide (b ≤ a + 1)) 20 dip 0
  have hthree : Converged 3 (fun a b => decide (b ≤ a + 1)) (samples dip 3 0).1 :=
    ⟨50, 51, rfl, rfl, rfl⟩
  have hle : n ≤ 3 := by
    by_contra hlt
    exact hbefore 3 (by decide) (by omega) hthree
  have hge : 3 ≤ n := by
    rcases hstop with ⟨a, b, _, hb, _⟩ | hmax
    · have hlen := (List.getElem?_eq_some_iff.mp hb).1
      rw [List.length_insertionSort, length_samples] at hlen
      omega
    · omega
  obtain rfl : n = 3 := by omega
  have hfifty : IsLeast { c | c ∈ (samples dip 3 0).1 } 50 := by
    refine ⟨by decide, fun c hc => ?_⟩
    have hall : ∀ c ∈ [51, 50, 51], 50 ≤ c := by decide
    exact hall c hc
  exact Prod.ext (hleast.unique hfifty) hx

end Best

end CsoMalloc
