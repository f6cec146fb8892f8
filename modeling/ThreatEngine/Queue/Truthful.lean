import Mathlib.Data.List.Perm.Subperm
import ThreatEngine.Queue.History

/-! When the answers "empty" and "full" are true. Both are read off one slot, so
a thread that is stalled between its compare-exchange and its sequence store
makes the queue look empty or full although later positions have moved on. -/
namespace ThreatEngine.Queue
variable {ι α : Type*} [DecidableEq ι]

/-- An item of an already returned push has not been claimed by any pop. -/
def Waiting (s : State ι α) : Prop := ∃ t p, .pushOk t p ∈ s.history ∧ p ∉ popClaims s.history

/-- At least `capacity` accepted items have not been returned by a pop. -/
def Saturated (capacity : Nat) (s : State ι α) : Prop :=
  (returned s.history).length + capacity ≤ (accepted s.history).length

/-- `P` holds at some instant of the call that thread `t` makes after `pre` and
that returns with the last step, `mid` being what runs in between. -/
def During (k : Nat) (pre : List (Action ι α)) (t : ι) (op : Op α) (mid : List (Action ι α))
    (b : Bool) (P : State ι α → Prop) : Prop :=
  ∃ as u, as <+: mid ++ [.step t b] ∧
    (threads ι α k).exec (threads ι α k).init (pre ++ .call t op :: as) = some u ∧ P u

/-- Every call of the run that answers "empty" or "full" tells the truth. -/
def Truthful (k : Nat) (run : List (Action ι α)) : Prop :=
  ∀ pre t op mid b post s, run = pre ++ .call t op :: (mid ++ .step t b :: post) →
    (∀ op', .call t op' ∉ mid) →
    (threads ι α k).exec (threads ι α k).init (pre ++ .call t op :: (mid ++ [.step t b])) = some s →
    (s.call t = .popEmpty → During k pre t op mid b fun u => ¬ Waiting u) ∧
    (∀ x, s.call t = .pushFull x → During k pre t op mid b (Saturated (2 ^ k)))

/-- A push between its compare-exchange and its sequence store has been
overtaken by the push of a later position. -/
def PushOvertaken (s : State ι α) : Prop :=
  ∃ t p t' p', (s.call t).pushing = some p ∧ .pushOk t' p' ∈ s.history ∧ p < p'

/-- A pop between its compare-exchange and its sequence store has been
overtaken by the pop of a later position. -/
def PopOvertaken (s : State ι α) : Prop :=
  ∃ t p t' p' r, (s.call t).popping = some p ∧ .popOk t' p' r ∈ s.history ∧ p < p'

/-- No sequence load finds its slot behind while a thread of its own kind of
claim, push before a pop and pop before a push, is overtaken. -/
def Orderly (k : Nat) (run : List (Action ι α)) : Prop :=
  ∀ pre t b post u, run = pre ++ .step t b :: post →
    (threads ι α k).exec (threads ι α k).init pre = some u →
    (∀ pos, u.call t = .popSeq pos → (u.queue.slot pos).sequence ≤ pos → ¬ PushOvertaken u) ∧
    (∀ x pos, u.call t = .pushSeq x pos → (u.queue.slot pos).sequence < pos → ¬ PopOvertaken u)

/-- Every claimed position is still being popped or has been returned. -/
def Settled (deq : Nat) (call : ι → Call α) (h : List (Event ι α)) : Prop :=
  ∀ p, p < deq → (∃ t, (call t).popping = some p) ∨ ∃ t r, .popOk t p r ∈ h

section Settling
variable {q q' : MpmcQueue α} {call : ι → Call α} {h : List (Event ι α)} {t : ι}

theorem Settled.update {deq : Nat} (hs : Settled deq call h) (c' : Call α) (e : List (Event ι α))
    (hk : ∀ p, (call t).popping = some p → c'.popping = some p) :
    Settled deq (Function.update call t c') (h ++ e) := by
  intro p hp
  cases hs p hp with
  | inl ho => exact Or.inl (exists_update ho (hk p))
  | inr ho =>
    obtain ⟨t', r, hm⟩ := ho
    exact Or.inr ⟨t', r, List.mem_append_left _ hm⟩

theorem Settled.move (hs : Settled q.dequeuePos call h) {c c' : Call α} (hc : call t = c)
    (hm : Move q c q' c') :
    Settled q'.dequeuePos (Function.update call t c') (h ++ observe t c c') := by
  cases hm with
  | popClaim pos hd =>
    subst hd
    intro p hp
    cases Nat.lt_or_ge p q.dequeuePos with
    | inl hlt => exact hs.update _ _ (by simp [hc, Call.popping]) p hlt
    | inr hge =>
      obtain rfl : p = q.dequeuePos := le_antisymm (Nat.le_of_lt_succ hp) hge
      exact Or.inl ⟨t, by simp [Call.popping]⟩
  | release pos r =>
    intro p hp
    by_cases hpe : p = pos
    · subst hpe
      exact Or.inr ⟨t, r, by simp [observe]⟩
    · cases hs p hp with
      | inl ho =>
        refine Or.inl (exists_update ho fun hcp => absurd ?_ (Ne.symm hpe))
        simpa [hc, Call.popping] using hcp
      | inr ho =>
        obtain ⟨t', r', hm⟩ := ho
        exact Or.inr ⟨t', r', List.mem_append_left _ hm⟩
  | take pos => exact hs.update _ _ (by simp [hc, Call.popping])
  | _ => exact hs.update _ _ (by simp [hc, Call.popping])

end Settling

theorem settled_of_reachable {k : Nat} {s : State ι α} (hr : (threads ι α k).Reachable s) :
    Settled s.queue.dequeuePos s.call s.history := by
  refine hr.rule (P := fun s => Settled s.queue.dequeuePos s.call s.history) ?_ ?_
  · intro p hp
    exact absurd hp (Nat.not_lt_zero p)
  · intro s a u _ ih hstep
    obtain ⟨t, op, _, hf, rfl⟩ | ⟨t, b, q', c', _, hm, rfl⟩ := step_cases hstep
    · have hno := (owns_eq_none_iff.mp (owns_of_finished hf)).2
      simpa using ih.update (t := t) op.start [] (by simp [hno])
    · exact ih.move rfl hm

omit [DecidableEq ι] in
theorem mem_popClaims {enq deq : Nat} {h : List (Event ι α)} (hc : Claimed enq deq h) {p : Nat} :
    p ∈ popClaims h ↔ p < deq := by
  rw [hc.pop_claims, List.mem_range]

/-- The step that answers "empty" is a sequence load that is behind its position. -/
theorem empty_load {u s : State ι α} {t : ι} {b : Bool} (hstep : u.step (.step t b) = some s)
    (hs : s.call t = .popEmpty) :
    ∃ pos, u.call t = .popSeq pos ∧ (u.queue.slot pos).sequence ≤ pos := by
  obtain ⟨_, _, h, _⟩ | ⟨t', b', q', c', h, hm, rfl⟩ := step_cases hstep
  · cases h
  · cases h
    obtain rfl : c' = .popEmpty := by simpa using hs
    generalize u.call t = c at hm
    cases hm with
    | popEmpty pos hseq => exact ⟨pos, rfl, hseq⟩

/-- The step that answers "full" is a sequence load that is behind its position. -/
theorem full_load {u s : State ι α} {t : ι} {b : Bool} {x : α} (hstep : u.step (.step t b) = some s)
    (hs : s.call t = .pushFull x) :
    ∃ pos, u.call t = .pushSeq x pos ∧ (u.queue.slot pos).sequence < pos := by
  obtain ⟨_, _, h, _⟩ | ⟨t', b', q', c', h, hm, rfl⟩ := step_cases hstep
  · cases h
  · cases h
    obtain rfl : c' = .pushFull x := by simpa using hs
    generalize u.call t = c at hm
    cases hm with
    | pushFull x pos hseq => exact ⟨pos, rfl, hseq⟩

section Instant
variable {k : Nat} {u s : State ι α} {t : ι} {b : Bool}

/-- At the answering instant "empty" is a lie exactly when a push has been overtaken. -/
theorem waiting_iff_overtaken (hk : 1 ≤ k) (hr : (threads ι α k).Reachable u)
    (hstep : u.step (.step t b) = some s) (hs : s.call t = .popEmpty) :
    Waiting u ↔ PushOvertaken u := by
  have hi := inv_of_reachable hk hr
  have hrec := recorded_of_reachable hk hr
  obtain ⟨pos, hc, hseq⟩ := empty_load hstep hs
  have hpos : Local _ u.queue _ (.popSeq pos) := hc ▸ hi.locals t
  constructor
  · intro ⟨t', p', hok, hnot⟩
    obtain ⟨hlt, hno⟩ := hrec.returns.push_ok t' p' hok
    rw [mem_popClaims hrec.claimed, Nat.not_lt] at hnot
    cases hi.empty_answer hpos hseq with
    | inl he => omega
    | inr ho =>
      obtain ⟨t₁, ht₁⟩ := ho
      have hne : p' ≠ u.queue.dequeuePos := fun he => hno t₁ (he ▸ ht₁)
      exact ⟨t₁, _, t', p', ht₁, hok, by omega⟩
  · intro ⟨t₁, p, t', p', hown, hok, hlt⟩
    refine ⟨t', p', hok, ?_⟩
    rw [mem_popClaims hrec.claimed]
    have := (hi.pushing_spec hown).1
    omega

omit [DecidableEq ι] in
theorem length_le_of_lt {l : List Nat} (hn : l.Nodup) {m : Nat} (h : ∀ p ∈ l, p < m) :
    l.length ≤ m := by
  have hsub : l ⊆ List.range m := fun p hp => List.mem_range.mpr (h p hp)
  simpa using (List.subperm_of_subset hn hsub).length_le

/-- At the answering instant "full" is a lie exactly when a pop has been overtaken. -/
theorem saturated_iff_not_overtaken (hk : 1 ≤ k) (hr : (threads ι α k).Reachable u) {x : α}
    (hstep : u.step (.step t b) = some s) (hs : s.call t = .pushFull x) :
    Saturated (2 ^ k) u ↔ ¬ PopOvertaken u := by
  have hi := inv_of_reachable hk hr
  have hrec := recorded_of_reachable hk hr
  obtain ⟨pos, hc, hseq⟩ := full_load hstep hs
  have hpos : Local _ u.queue _ (.pushSeq x pos) := hc ▸ hi.locals t
  obtain ⟨hcap, htail⟩ := hi.full_answer hpos hseq
  have hlen := hi.length
  have hret {p : Nat} (hp : p ∈ (returned u.history).map Prod.fst) :
      ∃ t r, .popOk t p r ∈ u.history := by
    obtain ⟨⟨p, r⟩, hm, rfl⟩ := List.mem_map.mp hp
    obtain ⟨t', ht'⟩ := mem_returned.mp hm
    exact ⟨t', r, ht'⟩
  constructor
  · intro hsat ⟨t₁, p, t', p', r, hown, hok, hlt⟩
    -- all the positions before the last `capacity` ones have been returned, and `p'` as well
    have hdr := hi.popping_drains hown
    have hall : p' :: List.range (u.queue.enqueuePos - 2 ^ k) ⊆ (returned u.history).map Prod.fst := by
      intro i hi'
      cases List.mem_cons.mp hi' with
      | inl he => exact List.mem_map.mpr ⟨(p', r), mem_returned.mpr ⟨t', hok⟩, he.symm⟩
      | inr hm =>
        have hlt' := List.mem_range.mp hm
        have hle := hi.enq_le
        cases settled_of_reachable hr i (by omega) with
        | inl ho =>
          obtain ⟨t₂, ht₂⟩ := ho
          have := hi.popping_drains ht₂
          omega
        | inr ho =>
          obtain ⟨t₂, r₂, ht₂⟩ := ho
          exact List.mem_map.mpr ⟨(i, r₂), mem_returned.mpr ⟨t₂, ht₂⟩, rfl⟩
    have hnd : (p' :: List.range (u.queue.enqueuePos - 2 ^ k)).Nodup := by
      refine List.nodup_cons.mpr ⟨fun hm => ?_, List.nodup_range⟩
      have := List.mem_range.mp hm
      omega
    have hcount := (List.subperm_of_subset hnd hall).length_le
    simp only [List.length_cons, List.length_range, List.length_map] at hcount
    unfold Saturated at hsat
    omega
  · intro hno
    have hbound : ∀ p ∈ (returned u.history).map Prod.fst, p < u.queue.enqueuePos - 2 ^ k := by
      intro p hp
      obtain ⟨t', r, hok⟩ := hret hp
      obtain ⟨_, hlt, hnp⟩ := hrec.returns.pop_ok t' p r hok
      cases htail with
      | inl he => omega
      | inr ho =>
        obtain ⟨t₁, ht₁⟩ := ho
        have hne : p ≠ u.queue.enqueuePos - 2 ^ k := fun he => hnp t₁ (he ▸ ht₁)
        by_contra hge
        exact hno ⟨t₁, _, t', p, r, ht₁, hok, by omega⟩
    have hcount := length_le_of_lt hrec.returns.pop_once hbound
    rw [List.length_map] at hcount
    unfold Saturated
    omega

end Instant

/-- A run in which no answer is given over an overtaken thread tells the truth throughout. -/
theorem failures_truthful {k : Nat} (hk : 1 ≤ k) {run : List (Action ι α)} (ho : Orderly k run) :
    Truthful k run := by
  intro pre t op mid b post s hrun _ hexec
  have hsplit : pre ++ .call t op :: (mid ++ [.step t b]) =
      (pre ++ .call t op :: mid) ++ [.step t b] := by simp
  rw [hsplit] at hexec
  obtain ⟨u, hu, hstep⟩ := (Guarded.exec_concat _ _ _ _ _).mp hexec
  have hr : (threads ι α k).Reachable u := ⟨_, hu⟩
  obtain ⟨hpush, hpop⟩ := ho (pre ++ .call t op :: mid) t b post u (by simp [hrun]) hu
  constructor
  · intro hs
    obtain ⟨pos, hc, hseq⟩ := empty_load hstep hs
    refine ⟨mid, u, List.prefix_append _ _, hu, fun hw => ?_⟩
    exact hpush pos hc hseq ((waiting_iff_overtaken hk hr hstep hs).mp hw)
  · intro x hs
    obtain ⟨pos, hc, hseq⟩ := full_load hstep hs
    exact ⟨mid, u, List.prefix_append _ _, hu,
      (saturated_iff_not_overtaken hk hr hstep hs).mpr (hpop x pos hc hseq)⟩

/-- No push has returned by the time a pop finds its slot behind, and no pop by the time a push does. -/
def unreturned (u : State ι α) : Action ι α → Bool
  | .call _ _ => true
  | .step t _ =>
    match u.call t with
    | .popSeq pos => pos < (u.queue.slot pos).sequence ||
        u.history.all fun | .pushOk _ _ => false | _ => true
    | .pushSeq _ pos => pos ≤ (u.queue.slot pos).sequence ||
        u.history.all fun | .popOk _ _ _ => false | _ => true
    | _ => true

/-- Nobody is overtaken by a call that has not returned. -/
theorem orderly_of_unreturned {k : Nat} {run : List (Action ι α)}
    (h : (threads ι α k).Throughout (fun u a => unreturned u a = true) run) : Orderly k run := by
  intro pre t b post u hrun hexec
  have hok : unreturned u (.step t b) = true := h pre _ post u hrun hexec
  constructor
  · intro pos hc hbehind ⟨_, _, t', p', _, hret, _⟩
    simp only [unreturned, hc, Bool.or_eq_true, decide_eq_true_eq, List.all_eq_true] at hok
    cases hok with
    | inl hlt => omega
    | inr hnone => exact absurd (hnone _ hret) Bool.false_ne_true
  · intro x pos hc hbehind ⟨_, _, t', p', r, _, hret, _⟩
    simp only [unreturned, hc, Bool.or_eq_true, decide_eq_true_eq, List.all_eq_true] at hok
    cases hok with
    | inl hle => omega
    | inr hnone => exact absurd (hnone _ hret) Bool.false_ne_true

/-- A pop finds the queue of capacity 2 empty while a push is stalled before its slot write, and a
push finds it full while a pop is stalled before its take. -/
def stalledAnswers : List (Action (Fin 3) Nat) :=
  .call 0 (.push 1) :: List.replicate 3 (.step 0 false) ++
    .call 1 .pop :: List.replicate 2 (.step 1 false) ++ List.replicate 2 (.step 0 false) ++
    .call 0 (.push 2) :: List.replicate 5 (.step 0 false) ++
    .call 1 .pop :: List.replicate 3 (.step 1 false) ++
    .call 2 (.push 3) :: List.replicate 2 (.step 2 false)

theorem failures_truthful_stalledAnswers : Truthful 1 stalledAnswers :=
  failures_truthful le_rfl (orderly_of_unreturned (Guarded.throughout_of_checks (by decide)))

example : ((threads (Fin 3) Nat 1).exec (threads (Fin 3) Nat 1).init (stalledAnswers.take 7)).map
      (fun s => (s.call 0, s.call 1)) = some (.pushWrite 1 0, .popEmpty) ∧
    ((threads (Fin 3) Nat 1).exec (threads (Fin 3) Nat 1).init stalledAnswers).map
      (fun s => (s.call 1, s.call 2)) = some (.popTake 0, .pushFull 3) := by
  decide

/-- The push of position 0 stalls before its slot write, the push of position 1
returns, and a third thread pops. -/
def overtakenPush : List (Action (Fin 3) Nat) :=
  .call 0 (.push 1) :: List.replicate 3 (.step 0 false) ++
    .call 1 (.push 2) :: List.replicate 5 (.step 1 false)

/-- Two items are pushed, the pop of position 0 stalls before its take, the pop
of position 1 returns, and a third item is pushed. -/
def overtakenPop : List (Action (Fin 3) Nat) :=
  .call 0 (.push 1) :: List.replicate 5 (.step 0 false) ++
    .call 0 (.push 2) :: List.replicate 5 (.step 0 false) ++
    .call 1 .pop :: List.replicate 3 (.step 1 false) ++
    .call 2 .pop :: List.replicate 5 (.step 2 false)

/-- The state in which a run ends, and the initial state for a run that cannot be made. -/
def State.after (run : List (Action (Fin 3) Nat)) : State (Fin 3) Nat :=
  ((threads (Fin 3) Nat 1).exec (threads (Fin 3) Nat 1).init run).getD (threads (Fin 3) Nat 1).init

theorem after_eq {run : List (Action (Fin 3) Nat)} {u : State (Fin 3) Nat}
    (h : (threads (Fin 3) Nat 1).exec (threads (Fin 3) Nat 1).init run = some u) : State.after run = u := by
  simp [State.after, h]

theorem not_truthful_overtaken :
    ¬ Truthful 1 (overtakenPush ++ .call 2 .pop :: List.replicate 2 (.step 2 false)) ∧
    ¬ Truthful 1 (overtakenPop ++ .call 0 (.push 3) :: List.replicate 2 (.step 0 false)) := by
  constructor
  · intro h
    obtain ⟨as, u, hp, hu, hno⟩ := (h overtakenPush 2 .pop [.step 2 false] false [] _ rfl (by simp)
      (Option.some_get (by decide)).symm).1 (by decide)
    refine hno ⟨1, 1, ?_⟩
    rw [← after_eq hu]
    simp only [List.cons_append, List.nil_append, List.prefix_cons_iff, List.prefix_nil] at hp
    obtain rfl | ⟨_, rfl, rfl | ⟨_, rfl, rfl⟩⟩ := hp <;> decide
  · intro h
    obtain ⟨as, u, hp, hu, hsat⟩ :=
      (h overtakenPop 0 (.push 3) [.step 0 false] false [] _ rfl (by simp)
      (Option.some_get (by decide)).symm).2 3 (by decide)
    rw [← after_eq hu] at hsat
    unfold Saturated at hsat
    simp only [List.cons_append, List.nil_append, List.prefix_cons_iff, List.prefix_nil] at hp
    obtain rfl | ⟨_, rfl, rfl | ⟨_, rfl, rfl⟩⟩ := hp <;> exact absurd hsat (by decide)
end ThreatEngine.Queue
