import ThreatEngine.Queue.Progress
import ThreatEngine.Queue.Spsc

/-! A pop of the only worker while something is published. It cannot find the queue empty and
cannot be overtaken, so nothing but spurious failures keeps it from its claim. -/
namespace ThreatEngine.Queue
variable {α : Type*}

/-- The atomic operations after a pop's claim that are left. -/
def Call.toReturn : Call α → Nat
  | .popTake _ => 1
  | .popStore _ _ => 0
  | _ => 2

/-- The atomic operations before a pop's compare-exchange that are left. -/
def Call.toClaim : Call α → Nat
  | .popCas _ => 0
  | .popSeq _ => 1
  | .popLoad => 2
  | _ => 3

/-- The position that a pop has loaded and not claimed yet. -/
def Call.loaded : Call α → Option Nat
  | .popSeq pos | .popCas pos => some pos
  | _ => none

section Steps
variable {k : Nat} {s u : State Role α} {b : Bool}

/-- A step leaves the other call alone, and its own has a result if and only if it is over. -/
theorem finished_of_step {t : Role} (hstep : s.step (.step t b) = some u) :
    (u.call t).finished = (u.call t).result.isSome ∧ ∀ t', t' ≠ t → u.call t' = s.call t' := by
  obtain ⟨_, _, ha, _⟩ | ⟨t', b', q', c', ha, hm, rfl⟩ := step_cases hstep
  · cases ha
  · cases ha
    refine ⟨?_, fun t' ht' => by simp [ht']⟩
    simp only [Function.update_self]
    generalize s.call t = c at hm
    cases hm <;> rfl

/-- The position that the only worker has loaded stays that of the next item. -/
theorem loaded_current (hk : 1 ≤ k) (hr : (spsc α k).Reachable s) {pos : Nat}
    (h : (s.call .worker).loaded = some pos) : pos = s.queue.dequeuePos := by
  refine hr.rule (P := fun s => ∀ pos, (s.call .worker).loaded = some pos → pos = s.queue.dequeuePos)
    (fun pos h => by cases h) (fun s a u hs ih hstep => ?_) pos h
  obtain ⟨-, hstep⟩ := Guarded.restrict_step hstep
  have halone := alone_of_reachable hk hs
  obtain ⟨t, op, -, -, rfl⟩ | ⟨t, b, q', c', -, hm, rfl⟩ := step_cases hstep
  · cases t with
    | producer => exact ih
    | worker => cases op <;> (intro pos h; simp [Op.start, Call.loaded] at h)
  · cases t with
    | producer =>
      obtain ⟨-, hdeq, -⟩ := producer_move (t := Role.producer) halone.pushes hm halone.last_push
      simpa [hdeq] using ih
    | worker =>
      have hpops := halone.pops
      intro pos h
      simp only [Function.update_self] at h
      generalize s.call .worker = c at hm hpops ih
      cases hm with
      | popReady p => exact ih pos h
      | popLoad | popRetry p => exact (Option.some.inj h).symm
      | popEmpty p | popStale p | popClaim p | take p | release p r => cases h
      | _ => simp [Call.pops] at hpops

/-- A pop that finds the queue empty has nothing to pop. -/
theorem returned_of_empty (hk : 1 ≤ k) (hr : (spsc α k).Reachable s) {pos : Nat}
    (hc : s.call .worker = .popSeq pos) (hs : (s.queue.slot pos).sequence ≤ pos) :
    s.published.length ≤ (returned s.history).length := by
  have htaken := taken_append_contents hk hr
  rw [empty_exact hk hr hc hs] at htaken
  have hcontents : s.queue.contents = [] := List.append_right_eq_self.mp htaken
  rw [length_published_eq hk hr, hc, hcontents]
  exact le_rfl

/-- A step of a pop while something is published: it comes closer to its return, or closer to its
compare-exchange, or the compare-exchange fails spuriously, or it returns an item. -/
theorem pop_advances (hk : 1 ≤ k) (hr : (spsc α k).Reachable s)
    (hmore : (returned s.history).length < s.published.length)
    (hstep : s.step (.step .worker b) = some u) :
    ((u.call .worker).result = none ∧ (returned u.history).length = (returned s.history).length ∧
      ((u.call .worker).toReturn < (s.call .worker).toReturn ∨
        (u.call .worker).toReturn = (s.call .worker).toReturn ∧
          ((u.call .worker).toClaim < (s.call .worker).toClaim ∨
            b = true ∧ ∃ pos, s.call .worker = .popCas pos))) ∨
    ∃ x, (u.call .worker).result = some (.popped (some x)) ∧
      (returned u.history).length = (returned s.history).length + 1 := by
  obtain ⟨-, -, -, hcases⟩ := worker_step hk hr hstep
  obtain ⟨⟨q', c'⟩, hraw, rfl⟩ := Option.map_eq_some_iff.mp hstep
  have hi := inv_of_reachable hk (reachable_threads hr)
  have hpops := (alone_of_reachable hk hr).pops
  have hl := hi.locals .worker
  have hretry := (retry_of_step hraw).2
  have hm := move_of_step hraw
  have hcurrent := @loaded_current α k s hk hr
  have hempty := @returned_of_empty α k s hk hr
  clear hraw hstep
  simp only [Function.update_self] at hcases ⊢
  generalize s.call .worker = c at hm hpops hl hcurrent hempty hretry hcases ⊢
  cases hm with
  | popLoad | popReady pos | popClaim pos | take pos =>
    simp [Call.result, Call.toReturn, Call.toClaim, observe, returned]
  | popEmpty pos hs => exact absurd (hempty rfl hs) (Nat.not_le.mpr hmore)
  | popStale pos hs => exact absurd (hcurrent rfl) (hi.passed_pop hl hs).ne
  | popRetry pos =>
    refine .inl ⟨rfl, by simp [observe, returned], .inr ⟨rfl, .inr ⟨?_, pos, rfl⟩⟩⟩
    by_contra hb
    cases hretry pos rfl (Bool.eq_false_iff.mpr hb) (hcurrent rfl).symm
  | release pos r =>
    obtain ⟨hres, -⟩ | hitem | ⟨-, hsame, -⟩ := hcases
    · cases hres
    · exact .inr hitem
    · simp [observe, returned] at hsame
  | _ => simp [Call.pops] at hpops

end Steps

end ThreatEngine.Queue
