import CsoMalloc.Memlib

/-! The break of the simulated memory system. `mem_sbrk` adds before it
compares, so the bound holds exactly as long as the addition does not wrap. -/

namespace CsoMalloc

inductive BrkCall where
  | reset
  | sbrk (incr : Int)

namespace BrkCall

/-- The argument of `mem_sbrk` is a 32-bit `int`. -/
def Valid : BrkCall → Prop
  | reset => True
  | sbrk incr => -2 ^ 31 ≤ incr ∧ incr < 2 ^ 31

def next (s : State) : BrkCall → State
  | reset => s.memResetBrk
  | sbrk incr => (s.memSbrk incr).1

/-- The sum that `mem_sbrk` compares does not run over the address space. -/
def NoWrap (s : State) : BrkCall → Prop
  | reset => True
  | sbrk incr => incr < 0 ∨ s.memBrk + incr < 2 ^ 32

end BrkCall

def InArena (s : State) : Prop := s.memStartBrk ≤ s.memBrk ∧ s.memBrk ≤ s.memMaxAddr

/-- The increment is one that the arena has room for, in exact integers. -/
def HasRoom (s : State) (incr : Int) : Prop := 0 ≤ incr ∧ incr ≤ s.memMaxAddr - s.memBrk

/-- What is asked of a call: the break stays in the arena, `mem_sbrk` does not
lower it and moves it exactly when there is room. -/
def BrkCall.Correct (s : State) : BrkCall → Prop
  | reset => InArena s.memResetBrk
  | sbrk incr => InArena (s.memSbrk incr).1 ∧ s.memBrk ≤ (s.memSbrk incr).1.memBrk ∧
    (HasRoom s incr → s.memSbrk incr = ({ s with memBrk := s.memBrk + incr.toNat }, s.memBrk)) ∧
    (¬ HasRoom s incr → s.memSbrk incr = (s, minusOne))

/-- The states reached from `s` by calls that all have the property. -/
inductive BrkRun (P : State → BrkCall → Prop) (s : State) : State → Prop where
  | start : BrkRun P s s
  | step {t : State} {c : BrkCall} : BrkRun P s t → c.Valid → P t c → BrkRun P s (c.next t)

/-- The bounds of an arena at `arena`, which lies within the address space. -/
structure ArenaAt (arena : Nat) (s : State) : Prop where
  startBrk : s.memStartBrk = arena
  maxAddr : s.memMaxAddr = arena + maxHeap
  inArena : InArena s

section Calls

variable {arena : Nat} {s t : State} {c : BrkCall}

theorem memInit_arenaAt (h : arena + maxHeap < 2 ^ 32) (hs : s.memInit arena = some t) :
    ArenaAt arena t := by
  rw [State.memInit] at hs
  split at hs
  · simp at hs
  · obtain rfl := Option.some.inj hs
    have hmax : wadd arena maxHeap = arena + maxHeap := wadd_eq h
    exact ⟨rfl, hmax, le_rfl, by rw [hmax]; exact Nat.le_add_right _ _⟩

namespace ArenaAt

theorem sbrk_eq (h : ArenaAt arena s) (ha : arena + maxHeap < 2 ^ 32) {incr : Int}
    (hn : incr < 0 ∨ s.memBrk + incr < 2 ^ 32) :
    (HasRoom s incr → s.memSbrk incr = ({ s with memBrk := s.memBrk + incr.toNat }, s.memBrk)) ∧
      (¬ HasRoom s incr → s.memSbrk incr = (s, minusOne)) := by
  have hmax := h.maxAddr
  unfold HasRoom State.memSbrk
  constructor
  · rintro ⟨h0, hr⟩
    have hsum : wadd s.memBrk incr.toNat = s.memBrk + incr.toNat := wadd_eq (by omega)
    rw [hsum, if_neg (by omega)]
  · intro hr
    refine if_pos ?_
    rcases hn with hn | hn
    · exact .inl hn
    · by_cases h0 : incr < 0
      · exact .inl h0
      · have hsum : wadd s.memBrk incr.toNat = s.memBrk + incr.toNat := wadd_eq (by omega)
        rw [hsum]
        omega

theorem correct (h : ArenaAt arena s) (ha : arena + maxHeap < 2 ^ 32) (hn : c.NoWrap s) :
    c.Correct s := by
  have hin := h.inArena
  cases c with
  | reset => exact ⟨le_rfl, hin.1.trans hin.2⟩
  | sbrk incr =>
    obtain ⟨hyes, hno⟩ := h.sbrk_eq ha hn
    by_cases hr : HasRoom s incr
    · have he := hyes hr
      obtain ⟨h0, hle⟩ := hr
      have hlo := hin.1
      refine ⟨?_, ?_, hyes, hno⟩
      · rw [he]
        constructor
        · show s.memStartBrk ≤ s.memBrk + incr.toNat
          omega
        · show s.memBrk + incr.toNat ≤ s.memMaxAddr
          omega
      · rw [he]
        exact Nat.le_add_right _ _
    · rw [BrkCall.Correct, hno hr]
      exact ⟨hin, le_rfl, fun h => absurd h hr, fun _ => rfl⟩

/-- A sum that wraps is below the break, so the call is granted. -/
theorem noWrap (h : ArenaAt arena s) (ha : arena + maxHeap < 2 ^ 32) (hv : c.Valid)
    (hc : c.Correct s) : c.NoWrap s := by
  cases c with
  | reset => trivial
  | sbrk incr =>
    obtain ⟨_, hge, _⟩ := hc
    have hin := h.inArena
    have hmax := h.maxAddr
    obtain ⟨hv, hv'⟩ := hv
    by_contra hw
    simp only [BrkCall.NoWrap, not_or, not_lt] at hw
    have hsum : wadd s.memBrk incr.toNat < s.memBrk := by
      rw [wadd]
      have := hin.2
      omega
    have hle := hsum.le.trans hin.2
    rw [State.memSbrk, if_neg (by omega)] at hge
    exact absurd hge (Nat.not_le.mpr hsum)

theorem next (h : ArenaAt arena s) (hc : c.Correct s) : ArenaAt arena (c.next s) := by
  cases c with
  | reset => exact ⟨h.startBrk, h.maxAddr, hc⟩
  | sbrk incr =>
    have hsame : (s.memSbrk incr).1.memStartBrk = s.memStartBrk ∧
        (s.memSbrk incr).1.memMaxAddr = s.memMaxAddr := by
      unfold State.memSbrk
      split <;> exact ⟨rfl, rfl⟩
    exact ⟨hsame.1.trans h.startBrk, hsame.2.trans h.maxAddr, hc.1⟩

end ArenaAt

/-- In every run whose calls do not wrap, the break stays in the arena, and the
next call does what is asked exactly when it does not wrap either. -/
theorem break_exact (ha : arena + maxHeap < 2 ^ 32) (hi : s.memInit arena = some t) {u : State}
    (hr : BrkRun BrkCall.NoWrap t u) :
    InArena u ∧ ∀ c : BrkCall, c.Valid → (c.Correct u ↔ c.NoWrap u) := by
  have hat : ArenaAt arena u := by
    induction hr with
    | start => exact memInit_arenaAt ha hi
    | step _ _ hn ih => exact ih.next (ih.correct ha hn)
  exact ⟨hat.inArena, fun c hv => ⟨hat.noWrap ha hv, hat.correct ha⟩⟩

theorem break_exact_low :
    ∃ t u, State.memInit default 4096 = some t ∧ BrkRun BrkCall.NoWrap t u ∧ u.memBrk = 12304 ∧
      InArena u := by
  obtain ⟨t, ht⟩ : ∃ t, State.memInit default 4096 = some t := ⟨_, rfl⟩
  have hbrk : t.memBrk = 4096 := by
    obtain rfl := Option.some.inj ht
    rfl
  have hr : BrkRun BrkCall.NoWrap t (BrkCall.next t (.sbrk 8208)) :=
    .step .start ⟨by decide, by decide⟩ (.inr (by rw [hbrk]; decide))
  refine ⟨t, _, ht, hr, ?_, (break_exact (by decide) ht hr).1⟩
  obtain rfl := Option.some.inj ht
  decide

/-- With the arena high in memory, a large increment moves the break below it. -/
theorem break_leaves_arena :
    ∃ t, State.memInit default 0xF0000000 = some t ∧
      ¬ BrkCall.Correct t (.sbrk (2 ^ 31 - 1)) ∧ (t.memSbrk (2 ^ 31 - 1)).1.memBrk < t.memStartBrk := by
  refine ⟨_, rfl, fun hc => ?_, by decide⟩
  have hge := hc.2.1
  revert hge
  decide

end Calls

end CsoMalloc
