import ThreatEngine.Lib.HappensBefore
import ThreatEngine.Queue.Steps

/-! The values in the slots are plain memory. In every interleaving, in which a load
reads the latest store, any two accesses to one of them are ordered by the acquire
loads and the release stores of the slot's sequence number; the two positions are
`Relaxed` and order nothing. -/
namespace ThreatEngine.Queue
open HappensBefore
variable {ι α : Type*}

/-- What the next step of a call does to a slot. -/
def Call.act (mask : Nat) : Call α → Option (Act Nat)
  | .pushSeq _ pos | .popSeq pos => some (.acquire (pos &&& mask))
  | .pushWrite _ pos | .popTake pos => some (.access (pos &&& mask))
  | .pushStore pos | .popStore pos _ => some (.release (pos &&& mask))
  | _ => none

/-- The trace of a step. -/
def slotActs (s : State ι α) : Action ι α → Trace ι Nat
  | .call _ _ => []
  | .step t _ => ((s.call t).act s.queue.mask).toList.map fun a => (t, a)

/-- The position whose slot a thread may access without another load of its sequence number. -/
def Call.armed (q : MpmcQueue α) : Call α → Option Nat
  | .pushCas _ pos => if q.enqueuePos = pos then some pos else none
  | .popCas pos => if q.dequeuePos = pos then some pos else none
  | c => c.owns

/-- The position whose slot a thread has accessed and not released. -/
def Call.accessed : Call α → Option Nat
  | .pushStore pos | .popStore pos _ => some pos
  | _ => none

/-- The invariant: who may access a slot knows all accesses to it, and so does its sequence number
unless its owner has yet to store it. -/
structure Synced (q : MpmcQueue α) (call : ι → Call α) (tr : Trace ι Nat) : Prop where
  armed : ∀ t p, (call t).armed q = some p → ∀ i, Accesses tr (p &&& q.mask) i → Knows tr t i
  carried : ∀ k, (∃ t p, (call t).accessed = some p ∧ p &&& q.mask = k) ∨
    ∀ i, Accesses tr k i → Carries tr k i
  raceFree : RaceFree tr

section Steps
variable {cap : Nat} {q q' : MpmcQueue α} {call : ι → Call α} {acc : List α} {t : ι} {c' : Call α}
  {tr : Trace ι Nat}

theorem owns_of_accessed {c : Call α} {p : Nat} (h : c.accessed = some p) : c.owns = some p := by
  cases c <;> simp_all [Call.accessed, Call.owns]

/-- Nobody owns the slot of the tail that a push has found free. -/
theorem Inv.tail_unowned (h : Inv cap q call acc) (hs : q.enqueuePos ≤ (q.slot q.enqueuePos).sequence)
    {p : Nat} (hp : (call t).owns = some p) : q.enqueuePos % cap ≠ p % cap := by
  intro hm
  obtain ⟨-, hseq, -⟩ := h.claim_free hs
  rw [h.same_slot hm] at hseq
  obtain hpush | hpop := owns_eq_some_iff.mp hp
  · obtain ⟨-, hlt, hs'⟩ := h.pushing_spec hpush
    omega
  · obtain ⟨-, -, hs'⟩ := h.popping_spec hpop
    have hsucc : q.enqueuePos = p + 1 := by omega
    exact Residue.succ_mod_ne h.two_le (hsucc ▸ hm)

/-- Nobody owns the slot of the head that a pop has found full. -/
theorem Inv.head_unowned (h : Inv cap q call acc)
    (hs : q.dequeuePos + 1 ≤ (q.slot q.dequeuePos).sequence) {p : Nat}
    (hp : (call t).owns = some p) : q.dequeuePos % cap ≠ p % cap := by
  intro hm
  obtain ⟨-, hseq, -⟩ := h.claim_full hs
  rw [h.same_slot hm] at hseq
  obtain hpush | hpop := owns_eq_some_iff.mp hp
  · obtain ⟨-, -, hs'⟩ := h.pushing_spec hpush
    have hsucc : p = q.dequeuePos + 1 := by omega
    exact Residue.succ_mod_ne h.two_le (hsucc ▸ hm.symm)
  · obtain ⟨hlt, -, hs'⟩ := h.popping_spec hpop
    omega

theorem Inv.armed_unowned (h : Inv cap q call acc) {t' : ι} (hne : t ≠ t') {p p' : Nat}
    (hp : (call t).armed q = some p) (hp' : (call t').owns = some p') : p % cap ≠ p' % cap := by
  have hl := h.locals t
  cases hc : call t with
  | pushCas x pos =>
    rw [hc] at hl hp
    obtain ⟨he, rfl⟩ : q.enqueuePos = pos ∧ pos = p := by simpa [Call.armed] using hp
    subst he
    exact h.tail_unowned hl.2 hp'
  | popCas pos =>
    rw [hc] at hl hp
    obtain ⟨hd, rfl⟩ : q.dequeuePos = pos ∧ pos = p := by simpa [Call.armed] using hp
    subst hd
    exact h.head_unowned hl.2 hp'
  | _ => exact h.exclusive hne (by rw [hc] at hp ⊢; exact hp) hp'

/-- What an event leaves of the accesses to the other slots. -/
theorem accesses_old {e : ι × Act Nat} {k i : Nat} (h : Accesses (tr ++ [e]) k i)
    (he : e.2 ≠ .access k) : Accesses tr k i :=
  h.of_concat.resolve_right fun hnew => he hnew.2

theorem Synced.armed_other (h : Synced q call tr) {e : ι × Act Nat} {u : ι} {p : Nat}
    (hp : (call u).armed q = some p) (he : e.2 ≠ .access (p &&& q.mask)) {i : Nat}
    (hi : Accesses (tr ++ [e]) (p &&& q.mask) i) : Knows (tr ++ [e]) u i :=
  (h.armed u p hp i (accesses_old hi he)).concat

/-- A slot's value and sequence number are not spoken about. -/
theorem Synced.frame (h : Synced q call tr) (hmask : q'.mask = q.mask)
    (he : q'.enqueuePos = q.enqueuePos) (hd : q'.dequeuePos = q.dequeuePos) : Synced q' call tr := by
  have harmed (c : Call α) : c.armed q' = c.armed q := by
    cases c <;> simp [Call.armed, he, hd]
  refine ⟨fun u p hp => ?_, fun k => ?_, h.raceFree⟩
  · rw [hmask]
    exact h.armed u p (harmed _ ▸ hp)
  · rw [hmask]
    exact h.carried k

/-- A claim disarms the other threads that were about to make it. -/
theorem Inv.armed_of_claim (h : Inv cap q call acc)
    (hclaim : q'.enqueuePos = q.enqueuePos + 1 ∧ q'.dequeuePos = q.dequeuePos ∨
      q'.enqueuePos = q.enqueuePos ∧ q'.dequeuePos = q.dequeuePos + 1) (u : ι) (p : Nat)
    (hp : (call u).armed q' = some p) : (call u).armed q = some p := by
  have hl := h.locals u
  cases hcu : call u <;> rw [hcu] at hp hl <;> simp_all [Call.armed, Local] <;> omega

variable [DecidableEq ι]

/-- A step that is not in the trace arms nobody. Only the mask and the two positions of the queue
are spoken about. -/
theorem Synced.claim (h : Synced q call tr) (t : ι) (c' : Call α) (ho : (call t).accessed = none)
    (hmask : q'.mask = q.mask) (harmed : ∀ p, c'.armed q' = some p → (call t).armed q = some p)
    (hothers : ∀ u p, (call u).armed q' = some p → (call u).armed q = some p) :
    Synced q' (Function.update call t c') tr := by
  refine ⟨fun u p hp => ?_, fun k => ?_, h.raceFree⟩
  · rw [hmask]
    by_cases hu : u = t
    · subst hu
      rw [Function.update_self] at hp
      exact h.armed u p (harmed p hp)
    · rw [Function.update_of_ne hu] at hp
      exact h.armed u p (hothers u p hp)
  · rw [hmask]
    refine (h.carried k).imp_left fun ⟨u, p, hu, hk⟩ => ⟨u, p, ?_, hk⟩
    have hne : u ≠ t := fun he => by simp [← he, hu] at ho
    rwa [Function.update_of_ne hne]

theorem Synced.silent (h : Synced q call tr) (t : ι) (c' : Call α) (ho : (call t).accessed = none)
    (harmed : ∀ p, c'.armed q = some p → (call t).armed q = some p) :
    Synced q (Function.update call t c') tr :=
  h.claim t c' ho rfl harmed fun _ _ hp => hp

theorem Synced.carried_other (h : Synced q call tr) {e : ι × Act Nat} {k : Nat} (c' : Call α)
    (ht : ∀ p, (call t).accessed = some p → p &&& q.mask ≠ k) (ha : e.2 ≠ .access k)
    (hr : e.2 ≠ .release k) :
    (∃ u p, (Function.update call t c' u).accessed = some p ∧ p &&& q.mask = k) ∨
      ∀ i, Accesses (tr ++ [e]) k i → Carries (tr ++ [e]) k i := by
  obtain ⟨u, p, hu, hk⟩ | hcarried := h.carried k
  · have hne : u ≠ t := fun he => ht p (he ▸ hu) hk
    exact Or.inl ⟨u, p, by rwa [Function.update_of_ne hne], hk⟩
  · exact Or.inr fun i hi => (hcarried i (accesses_old hi ha)).concat hr

/-- An acquire load arms its thread at most with what the sequence number carries. -/
theorem Synced.acquire (h : Synced q call tr) {k : Nat} (ho : (call t).accessed = none)
    (harmed : ∀ p, c'.armed q = some p → p &&& q.mask = k ∧
      ∀ u p', (call u).accessed = some p' → p' &&& q.mask ≠ k) :
    Synced q (Function.update call t c') (tr ++ [(t, .acquire k)]) := by
  refine ⟨fun u p hp i hi => ?_, fun k' => ?_, h.raceFree.concat fun _ he => by cases he⟩
  · by_cases hu : u = t
    · subst hu
      rw [Function.update_self] at hp
      obtain ⟨rfl, hfree⟩ := harmed p hp
      obtain ⟨v, p', hv, hp'⟩ | hcarried := h.carried (p &&& q.mask)
      · exact absurd hp' (hfree v p' hv)
      · exact (hcarried i (accesses_old hi (by simp))).acquire u
    · rw [Function.update_of_ne hu] at hp
      exact h.armed_other hp (by simp) hi
  · exact h.carried_other c' (by simp [ho]) (by simp) (by simp)

/-- The owner of a slot accesses its value. -/
theorem Synced.access (hi : Inv cap q call acc) (h : Synced q call tr) (t : ι) (c' : Call α) {pos : Nat}
    (ho : (call t).owns = some pos) (hno : (call t).accessed = none)
    (harmed : (call t).armed q = some pos) (hpos : c'.accessed = some pos)
    (harmed' : c'.armed q = some pos) :
    Synced q (Function.update call t c') (tr ++ [(t, .access (pos &&& q.mask))]) := by
  refine ⟨fun u p hp i hacc => ?_, fun k => ?_, h.raceFree.concat fun k he i hacc => ?_⟩
  · by_cases hu : u = t
    · subst hu
      rw [Function.update_self, harmed'] at hp
      obtain rfl := Option.some.inj hp
      obtain hold | ⟨rfl, -⟩ := hacc.of_concat
      · exact (h.armed u pos harmed i hold).concat
      · exact knows_own tr u _
    · rw [Function.update_of_ne hu] at hp
      refine h.armed_other hp (fun he => ?_) hacc
      have hsame : pos &&& q.mask = p &&& q.mask := by simpa using he
      exact hi.armed_unowned hu hp ho ((hi.index p pos).mp hsame.symm)
  · by_cases hk : pos &&& q.mask = k
    · exact Or.inl ⟨t, pos, by rw [Function.update_self, hpos], hk⟩
    · exact h.carried_other c' (by simp [hno]) (by simpa using hk) (by simp)
  · obtain rfl : pos &&& q.mask = k := by simpa using he
    exact h.armed t pos harmed i hacc

/-- The owner of a slot stores its sequence number. -/
theorem Synced.release (h : Synced q call tr) (t : ι) (c' : Call α) {pos : Nat}
    (hpos : (call t).accessed = some pos) (harmed : (call t).armed q = some pos)
    (hidle : c'.armed q = none) :
    Synced q (Function.update call t c') (tr ++ [(t, .release (pos &&& q.mask))]) := by
  refine ⟨fun u p hp i hacc => ?_, fun k => ?_, h.raceFree.concat fun _ he => by cases he⟩
  · have hu : u ≠ t := fun he => by
      rw [he, Function.update_self, hidle] at hp
      cases hp
    rw [Function.update_of_ne hu] at hp
    exact h.armed_other hp (by simp) hacc
  · by_cases hk : pos &&& q.mask = k
    · subst hk
      exact Or.inr fun i hacc => (h.armed t pos harmed i (accesses_old hacc (by simp))).release _
    · refine h.carried_other c' (fun p hp => ?_) (by simp) (by simpa using hk)
      obtain rfl : pos = p := Option.some.inj (hpos.symm.trans hp)
      exact hk

/-- The step lemma. -/
theorem Synced.move (hi : Inv cap q call acc) (h : Synced q call tr) {c : Call α} (hc : call t = c)
    (hm : Move q c q' c') : Synced q' (Function.update call t c')
      (tr ++ (c.act q.mask).toList.map fun a => (t, a)) := by
  cases hm with
  | pushLoad x | pushRetry x pos | popLoad | popRetry pos =>
    simpa [Call.act] using h.silent t _ (by rw [hc]; rfl) (by simp [Call.armed, Call.owns])
  | pushFull x pos hs | pushStale x pos hs | popEmpty pos hs | popStale pos hs =>
    exact h.acquire (by rw [hc]; rfl) (by simp [Call.armed, Call.owns])
  | pushFree x pos hs =>
    refine h.acquire (by rw [hc]; rfl) fun p hp => ?_
    obtain ⟨rfl, rfl⟩ : q.enqueuePos = pos ∧ pos = p := by simpa [Call.armed] using hp
    exact ⟨rfl, fun u p' hu he =>
      hi.tail_unowned hs.ge (owns_of_accessed hu) ((hi.index _ _).mp he.symm)⟩
  | popReady pos hs =>
    refine h.acquire (by rw [hc]; rfl) fun p hp => ?_
    obtain ⟨rfl, rfl⟩ : q.dequeuePos = pos ∧ pos = p := by simpa [Call.armed] using hp
    exact ⟨rfl, fun u p' hu he =>
      hi.head_unowned hs.ge (owns_of_accessed hu) ((hi.index _ _).mp he.symm)⟩
  | pushClaim x pos he =>
    have hclaim : Synced { q with enqueuePos := pos + 1 } (Function.update call t (.pushWrite x pos)) tr :=
      h.claim t _ (by rw [hc]; rfl) rfl (by simp [hc, Call.armed, Call.owns, he])
        (hi.armed_of_claim (.inl ⟨congrArg (· + 1) he.symm, rfl⟩))
    simpa [Call.act] using hclaim
  | popClaim pos hd =>
    have hclaim : Synced { q with dequeuePos := pos + 1 } (Function.update call t (.popTake pos)) tr :=
      h.claim t _ (by rw [hc]; rfl) rfl (by simp [hc, Call.armed, Call.owns, hd])
        (hi.armed_of_claim (.inr ⟨rfl, congrArg (· + 1) hd.symm⟩))
    simpa [Call.act] using hclaim
  | write x pos =>
    have haccess := h.access hi t (.pushStore pos) (by rw [hc]; rfl) (by rw [hc]; rfl)
      (by rw [hc]; rfl) rfl rfl
    exact haccess.frame rfl rfl rfl
  | take pos =>
    have haccess := h.access hi t (.popStore pos (q.slot pos).value) (by rw [hc]; rfl) (by rw [hc]; rfl)
      (by rw [hc]; rfl) rfl rfl
    exact haccess.frame rfl rfl rfl
  | publish pos =>
    have hrelease := h.release t (.pushOk pos) (by rw [hc]; rfl) (by rw [hc]; rfl) rfl
    exact hrelease.frame rfl rfl rfl
  | release pos r =>
    have hrelease := h.release t (.popOk pos r) (by rw [hc]; rfl) (by rw [hc]; rfl) rfl
    exact hrelease.frame rfl rfl rfl

end Steps

section Runs
variable [DecidableEq ι] {k : Nat}

/-- The run lemma. -/
theorem synced_of_reachable (hk : 1 ≤ k) {x : State ι α × Trace ι Nat}
    (hr : ((threads ι α k).logged slotActs).Reachable x) : Synced x.1.queue x.1.call x.2 := by
  refine hr.rule (P := fun x => Synced x.1.queue x.1.call x.2) ?_ ?_
  · refine ⟨fun t p hp => ?_, fun k => Or.inr fun i hi => ?_, raceFree_nil⟩
    · simp [Guarded.System.logged, threads, State.init, Call.armed, Call.owns] at hp
    · exact absurd hi.lt_length (Nat.not_lt_zero _)
  · intro x a y hreach hsynced hs
    obtain ⟨hstep, hlog⟩ := Guarded.logged_step hs
    have hi := inv_of_reachable hk hreach.of_logged
    obtain ⟨t, op, rfl, hf, hy⟩ | ⟨t, b, q', c', rfl, hm, hy⟩ := step_cases hstep
    · rw [hlog, hy]
      have hnone : (x.1.call t).accessed = none := by
        cases hc : x.1.call t <;> simp_all [Call.finished, Call.accessed]
      simpa [slotActs] using hsynced.silent t op.start hnone
        (by cases op <;> simp [Op.start, Call.armed, Call.owns])
    · rw [hlog, hy]
      exact hsynced.move hi rfl hm

/-- Whatever the threads do, no two accesses to a value race. -/
theorem values_race_free (hk : 1 ≤ k) {run : List (Action ι α)} {x : State ι α × Trace ι Nat}
    (h : ((threads ι α k).logged slotActs).exec ((threads ι α k).logged slotActs).init run = some x) :
    RaceFree x.2 :=
  (synced_of_reachable hk ⟨run, h⟩).raceFree

/-- An item goes from one thread to another, whose slot is then used for the next round. -/
def passedOn : List (Action (Fin 2) Nat) :=
  .call 0 (.push 7) :: List.replicate 5 (.step 0 false) ++
    .call 1 .pop :: List.replicate 5 (.step 1 false) ++
    .call 0 (.push 8) :: List.replicate 5 (.step 0 false) ++
    .call 0 (.push 9) :: List.replicate 5 (.step 0 false)

theorem values_race_free_passedOn : RaceFree
    ((((threads (Fin 2) Nat 1).logged slotActs).exec ((threads (Fin 2) Nat 1).logged slotActs).init
      passedOn).get (by decide)).2 :=
  values_race_free le_rfl (Option.some_get _).symm

example : (((threads (Fin 2) Nat 1).logged slotActs).exec
    ((threads (Fin 2) Nat 1).logged slotActs).init passedOn).map Prod.snd =
      some [(0, .acquire 0), (0, .access 0), (0, .release 0), (1, .acquire 0), (1, .access 0),
        (1, .release 0), (0, .acquire 1), (0, .access 1), (0, .release 1), (0, .acquire 0),
        (0, .access 0), (0, .release 0)] := by
  decide

end Runs

end ThreatEngine.Queue
