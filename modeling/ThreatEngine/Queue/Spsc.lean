import ThreatEngine.Queue.History

/-! A queue with one thread that only pushes and one that only pops, as the
pipeline uses it. No thread can be overtaken here, so the answers "empty" and
"full" are exact and the items come out in the order in which they went in. -/
namespace ThreatEngine.Queue
variable {α : Type*}

inductive Role where
  | producer
  | worker
  deriving DecidableEq

def permitted : Action Role α → Bool
  | .call .producer (.push _) | .call .worker .pop | .step _ _ => true
  | _ => false

def spsc (α : Type*) (k : Nat) : Guarded.System (State Role α) (Action Role α) :=
  (threads Role α k).restrict permitted

/-- The items that pops have taken out of their slots. -/
def taken {ι : Type*} (h : List (Event ι α)) : List α :=
  h.filterMap fun
    | .take _ _ item => item
    | _ => none

/-- The items in published slots, by position. -/
def MpmcQueue.contents (q : MpmcQueue α) : List α :=
  (List.range q.enqueuePos).filterMap fun p =>
    if (q.slot p).sequence = p + 1 then (q.slot p).value else none

def Call.pushes : Call α → Bool
  | .idle | .pushLoad _ | .pushSeq _ _ | .pushCas _ _ | .pushWrite _ _ | .pushStore _ | .pushOk _
  | .pushFull _ => true
  | _ => false

def Call.pops : Call α → Bool
  | .idle | .popLoad | .popSeq _ | .popCas _ | .popTake _ | .popStore _ _ | .popOk _ _ | .popEmpty => true
  | _ => false

/-- A pop has claimed its position and not taken the item yet. -/
def Call.taking : Call α → Bool
  | .popTake _ => true
  | _ => false

/-- A pop has taken its item and not returned it yet. -/
def Call.storing : Call α → Bool
  | .popStore _ _ => true
  | _ => false

def State.takenCount (s : State Role α) : Nat := s.queue.dequeuePos - (s.call .worker).taking.toNat

def State.publishedCount (s : State Role α) : Nat :=
  s.queue.enqueuePos - (s.call .producer).pushing.isSome.toNat

/-- The items of pushes that have stored their sequence number. -/
def State.published (s : State Role α) : List α := (accepted s.history).take s.publishedCount

/-- What holds when each side of the queue has a thread to itself: a claimed
position is the last one, and the history can be read off the counters. -/
structure Alone (s : State Role α) : Prop where
  pushes : (s.call .producer).pushes = true
  pops : (s.call .worker).pops = true
  last_push : ∀ p, (s.call .producer).pushing = some p → p + 1 = s.queue.enqueuePos
  last_pop : ∀ p, (s.call .worker).popping = some p → p + 1 = s.queue.dequeuePos
  taken_eq : taken s.history = (accepted s.history).take s.takenCount
  returned_length : (returned s.history).length + (s.call .worker).popping.isSome.toNat = s.queue.dequeuePos

section Steps
variable {ι : Type*} {cap : Nat} {q q' : MpmcQueue α} {acc : List α} {c c' : Call α} {t : ι}

theorem taken_append (h h' : List (Event ι α)) : taken (h ++ h') = taken h ++ taken h' :=
  List.filterMap_append

theorem pushing_of_pops (h : c.pops = true) : c.pushing = none := by
  cases c <;> simp_all [Call.pops, Call.pushing]

theorem popping_of_pushes (h : c.pushes = true) : c.popping = none := by
  cases c <;> simp_all [Call.pushes, Call.popping]

theorem taking_of_finished (h : c.finished = true) : c.taking = false := by
  cases c <;> simp_all [Call.finished, Call.taking]

theorem popping_toNat (c : Call α) : c.popping.isSome.toNat = c.taking.toNat + c.storing.toNat := by
  cases c <;> rfl

/-- What a step of the producer leaves alone, and where it claims. -/
theorem producer_move (hc : c.pushes = true) (hm : Move q c q' c')
    (hlast : ∀ p, c.pushing = some p → p + 1 = q.enqueuePos) :
    c'.pushes = true ∧ q'.dequeuePos = q.dequeuePos ∧ (∀ p, c'.pushing = some p → p + 1 = q'.enqueuePos) ∧
      taken (observe t c c') = [] ∧ returned (observe t c c') = [] := by
  cases hm with
  | pushClaim x pos he => simp [Call.pushes, Call.pushing, taken, returned, observe]
  | write x pos => simpa [Call.pushes, Call.pushing, taken, returned, observe] using hlast
  | pushLoad | pushFree | pushFull | pushStale | pushRetry | publish =>
    simp [Call.pushes, Call.pushing, taken, returned, observe]
  | _ => simp [Call.pushes] at hc

/-- What a step of the worker leaves alone, where it claims, what it takes and what it returns. -/
theorem worker_move (hc : c.pops = true) (hl : Local cap q acc c) (hm : Move q c q' c')
    (hlen : q.dequeuePos ≤ acc.length) (hlast : ∀ p, c.popping = some p → p + 1 = q.dequeuePos) :
    c'.pops = true ∧ q'.enqueuePos = q.enqueuePos ∧ (∀ p, c'.popping = some p → p + 1 = q'.dequeuePos) ∧
      accepted (observe t c c') = [] ∧
      acc.take (q.dequeuePos - c.taking.toNat) ++ taken (observe t c c') =
        acc.take (q'.dequeuePos - c'.taking.toNat) ∧
      (returned (observe t c c')).length + c'.popping.isSome.toNat + q.dequeuePos =
        c.popping.isSome.toNat + q'.dequeuePos := by
  cases hm with
  | popClaim pos hd =>
    subst hd
    simp [Call.pops, Call.popping, Call.taking, accepted, taken, returned, observe, Nat.add_comm]
  | take pos =>
    obtain ⟨hlt, _, _, hval⟩ := hl
    have hpos := hlast pos rfl
    have hitem : acc[pos]? = some acc[pos] := List.getElem?_eq_getElem (by omega)
    refine ⟨rfl, rfl, hlast, rfl, ?_, rfl⟩
    change acc.take (q.dequeuePos - 1) ++ taken [Event.take t pos (q.slot pos).value] = acc.take q.dequeuePos
    rw [← hpos, Nat.add_sub_cancel, List.take_add_one, hval, hitem]
    rfl
  | release pos r | popLoad | popReady | popEmpty | popStale | popRetry =>
    simp [Call.pops, Call.popping, Call.taking, accepted, taken, returned, observe]
  | _ => simp [Call.pops] at hc

end Steps

section Run
variable {k : Nat} {s u : State Role α}

theorem reachable_threads (h : (spsc α k).Reachable s) : (threads Role α k).Reachable s :=
  h.of_restrict

/-- A new call of either thread keeps to the thread's own kind. -/
theorem Alone.start (h : Alone s) {t : Role} {op : Op α} (hf : (s.call t).finished = true)
    (hp : permitted (.call t op) = true) : Alone { s with call := Function.update s.call t op.start } := by
  have hno := owns_eq_none_iff.mp (owns_of_finished hf)
  cases t with
  | producer =>
    cases op with
    | pop => cases hp
    | push x => exact ⟨rfl, h.pops, by simp [Op.start, Call.pushing], h.last_pop, h.taken_eq, h.returned_length⟩
  | worker =>
    cases op with
    | push x => cases hp
    | pop =>
      refine ⟨h.pushes, rfl, h.last_push, by simp [Op.start, Call.popping], ?_, ?_⟩
      · rw [h.taken_eq, State.takenCount, taking_of_finished hf]
        rfl
      · rw [← h.returned_length, hno.2]
        rfl

theorem Alone.producer_move (h : Alone s) {cap : Nat}
    (hi : Inv cap s.queue s.call (accepted s.history))
    {q' : MpmcQueue α} {c' : Call α} (hm : Move s.queue (s.call .producer) q' c') :
    Alone ⟨q', Function.update s.call .producer c', s.history ++ observe .producer (s.call .producer) c'⟩ := by
  obtain ⟨hpushes, hdeq, hlast, htaken, hret⟩ :=
    Queue.producer_move (t := Role.producer) h.pushes hm h.last_push
  have hcount : s.takenCount ≤ (accepted s.history).length :=
    Nat.le_trans (Nat.sub_le _ _) (hi.length ▸ hi.deq_le)
  have hsame : State.takenCount ⟨q', Function.update s.call .producer c',
      s.history ++ observe .producer (s.call .producer) c'⟩ = s.takenCount := by
    simp [State.takenCount, hdeq]
  refine ⟨by simpa using hpushes, h.pops, by simpa using hlast, by simpa [hdeq] using h.last_pop, ?_, ?_⟩
  · rw [hsame, taken_append, htaken, List.append_nil, h.taken_eq, accepted_append,
      List.take_append_of_le_length hcount]
  · simpa [hret, hdeq] using h.returned_length

theorem Alone.worker_move (h : Alone s) {cap : Nat}
    (hi : Inv cap s.queue s.call (accepted s.history))
    {q' : MpmcQueue α} {c' : Call α} (hm : Move s.queue (s.call .worker) q' c') :
    Alone ⟨q', Function.update s.call .worker c', s.history ++ observe .worker (s.call .worker) c'⟩ := by
  obtain ⟨hpops, henq, hlast, hacc, htaken, hret⟩ := Queue.worker_move (t := Role.worker) h.pops
    (hi.locals .worker) hm (hi.length ▸ hi.deq_le) h.last_pop
  have hold := h.returned_length
  refine ⟨h.pushes, by simpa using hpops, by simpa [henq] using h.last_push, by simpa using hlast, ?_, ?_⟩
  · rw [taken_append, h.taken_eq, accepted_append, hacc, List.append_nil]
    simpa [State.takenCount] using htaken
  · simp only [returned_append, List.length_append, Function.update_self]
    omega

theorem alone_of_reachable (hk : 1 ≤ k) (hr : (spsc α k).Reachable s) : Alone s := by
  refine hr.rule (P := Alone) ?_ fun s a u hs ih hstep => ?_
  · exact ⟨rfl, rfl, by simp [spsc, Guarded.System.restrict, threads, State.init, Call.pushing],
      by simp [spsc, Guarded.System.restrict, threads, State.init, Call.popping], rfl, rfl⟩
  · obtain ⟨hallow, hstep⟩ := Guarded.restrict_step hstep
    have hi := inv_of_reachable hk (reachable_threads hs)
    obtain ⟨t, op, rfl, hf, rfl⟩ | ⟨t, b, q', c', rfl, hm, rfl⟩ := step_cases hstep
    · exact ih.start hf hallow
    · cases t with
      | producer => exact ih.producer_move hi hm
      | worker => exact ih.worker_move hi hm

end Run

section Contents
variable {cap : Nat} {k : Nat} {s : State Role α}

/-- The published positions are those that the producer has claimed and let go. -/
theorem Alone.lt_publishedCount (h : Alone s) {p : Nat} (hp : p < s.queue.enqueuePos) :
    p < s.publishedCount ↔ (s.call .producer).pushing ≠ some p := by
  unfold State.publishedCount
  cases hc : (s.call .producer).pushing with
  | none => simpa using hp
  | some p' =>
    have := h.last_push p' hc
    simp only [Option.isSome_some, Bool.toNat_true, ne_eq, Option.some.injEq]
    omega

theorem Alone.takenCount_le (h : Alone s) {p : Nat} (hp : p < s.queue.dequeuePos) :
    s.takenCount ≤ p ↔ s.call .worker = .popTake p := by
  unfold State.takenCount
  cases hc : s.call .worker with
  | popTake p' =>
    have := h.last_pop p' (by rw [hc]; rfl)
    simp only [Call.taking, Bool.toNat_true, Call.popTake.injEq]
    omega
  | _ => simpa [Call.taking] using hp

theorem Alone.takenCount_add (h : Alone s) :
    s.takenCount + (s.call .worker).taking.toNat = s.queue.dequeuePos := by
  unfold State.takenCount
  cases hc : s.call .worker with
  | popTake p =>
    have := h.last_pop p (by rw [hc]; rfl)
    simp only [Call.taking, Bool.toNat_true]
    omega
  | _ => rfl

theorem takenCount_le_dequeuePos : s.takenCount ≤ s.queue.dequeuePos := Nat.sub_le _ _

theorem Alone.dequeuePos_le (h : Alone s) (hi : Inv cap s.queue s.call (accepted s.history)) :
    s.queue.dequeuePos ≤ s.publishedCount := by
  unfold State.publishedCount
  cases hc : (s.call .producer).pushing with
  | none => simpa using hi.deq_le
  | some p =>
    have := (hi.pushing_spec hc).1
    have := h.last_push p hc
    simp only [Option.isSome_some, Bool.toNat_true]
    omega

/-- What a slot holds for a claimed position. -/
theorem Alone.slot_spec (h : Alone s) (hi : Inv cap s.queue s.call (accepted s.history)) {p : Nat}
    (hp : p < s.queue.enqueuePos) :
    (if (s.queue.slot p).sequence = p + 1 then (s.queue.slot p).value else none) =
      if s.takenCount ≤ p ∧ p < s.publishedCount then (accepted s.history)[p]? else none := by
  cases Nat.lt_or_ge p s.queue.dequeuePos with
  | inl hlt =>
    have hpub : p < s.publishedCount := Nat.lt_of_lt_of_le hlt (h.dequeuePos_le hi)
    have hl := hi.locals .worker
    have htaken := h.takenCount_le hlt
    by_cases htake : s.call .worker = .popTake p
    · rw [htake] at hl
      rw [if_pos hl.2.2.1, if_pos ⟨htaken.mpr htake, hpub⟩, hl.2.2.2]
    · have hright : ¬(s.takenCount ≤ p ∧ p < s.publishedCount) := fun hc => htake (htaken.mp hc.1)
      rw [if_neg hright]
      by_cases hpop : (s.call .worker).popping = some p
      · obtain ⟨r, hr⟩ : ∃ r, s.call .worker = .popStore p r := by
          cases hc : s.call .worker <;> simp_all [Call.popping]
        rw [hr] at hl
        rw [if_pos hl.2.2.1, hl.2.2.2.1]
      · refine if_neg (hi.released hlt fun t => ?_)
        cases t with
        | producer => simp [popping_of_pushes h.pushes]
        | worker => exact hpop
  | inr hge =>
    have htaken : s.takenCount ≤ p := Nat.le_trans takenCount_le_dequeuePos hge
    have hle := hi.enq_le
    cases hi.window p hge (by omega) with
    | free hs _ ho =>
      obtain ⟨t, ht⟩ := ho hp
      have hnot : ¬p < s.publishedCount := by
        cases t with
        | producer => exact fun hlt => (h.lt_publishedCount hp).mp hlt ht
        | worker => rw [pushing_of_pops h.pops] at ht; cases ht
      rw [if_neg (by omega), if_neg fun hc => hnot hc.2]
    | full hs _ hv =>
      have hpub : p < s.publishedCount := (h.lt_publishedCount hp).mpr fun hc => by
        have := (hi.pushing_spec hc).2.2
        omega
      rw [if_pos hs, if_pos ⟨htaken, hpub⟩, hv]
    | draining _ _ he _ => omega

/-- Reading a window of a list position by position. -/
theorem filterMap_window (l : List α) (a b n : Nat) :
    ((List.range n).filterMap fun p => if a ≤ p ∧ p < b then l[p]? else none) = (l.take (min b n)).drop a := by
  induction n with
  | zero => simp
  | succ n ih =>
    rw [List.range_succ, List.filterMap_append, ih]
    cases Nat.lt_or_ge n b with
    | inr hge => simp [Nat.not_lt.mpr hge, Nat.min_eq_left hge, Nat.min_eq_left (Nat.le_succ_of_le hge)]
    | inl hlt =>
      rw [Nat.min_eq_right (Nat.le_of_lt hlt), Nat.min_eq_right hlt, List.take_add_one]
      cases hn : l[n]? with
      | none => simp [hn]
      | some x =>
        have hlen : n < l.length := (List.getElem?_eq_some_iff.mp hn).1
        cases Nat.lt_or_ge n a with
        | inl hna =>
          rw [List.drop_eq_nil_of_le (by simp; omega), List.drop_eq_nil_of_le (by simp; omega)]
          simp [Nat.not_le.mpr hna]
        | inr han =>
          rw [List.drop_append_of_le_length (by simp; omega)]
          simp [hn, han, hlt]

theorem Alone.contents_eq (h : Alone s) (hi : Inv cap s.queue s.call (accepted s.history)) :
    s.queue.contents = s.published.drop s.takenCount := by
  have hle : s.publishedCount ≤ s.queue.enqueuePos := Nat.sub_le _ _
  rw [State.published, MpmcQueue.contents, ← Nat.min_eq_left hle, ← filterMap_window]
  exact List.filterMap_congr fun p hp => h.slot_spec hi (List.mem_range.mp hp)

/-- What has been taken, followed by what is in the slots, is what has been published. -/
theorem taken_append_contents (hk : 1 ≤ k) (hr : (spsc α k).Reachable s) :
    taken s.history ++ s.queue.contents = s.published := by
  have h := alone_of_reachable hk hr
  have hi := inv_of_reachable hk (reachable_threads hr)
  have hle : s.takenCount ≤ s.publishedCount :=
    Nat.le_trans takenCount_le_dequeuePos (h.dequeuePos_le hi)
  have htake : s.published.take s.takenCount = taken s.history := by
    rw [h.taken_eq, State.published, List.take_take, Nat.min_eq_left hle]
  rw [h.contents_eq hi, ← htake, List.take_append_drop]

theorem length_published (hk : 1 ≤ k) (hr : (spsc α k).Reachable s) :
    s.published.length = s.publishedCount := by
  have hi := inv_of_reachable hk (reachable_threads hr)
  rw [State.published, List.length_take, hi.length]
  exact Nat.min_eq_left (Nat.sub_le _ _)

/-- Every published item is in its slot, with the worker, or returned. -/
theorem length_published_eq (hk : 1 ≤ k) (hr : (spsc α k).Reachable s) :
    s.published.length = (returned s.history).length + (s.call .worker).storing.toNat + s.queue.contents.length := by
  have h := alone_of_reachable hk hr
  have hi := inv_of_reachable hk (reachable_threads hr)
  have hret := h.returned_length
  have hcount := popping_toNat (s.call .worker)
  have hle := h.dequeuePos_le hi
  have htaken := h.takenCount_add
  rw [h.contents_eq hi, List.length_drop, length_published hk hr]
  omega

end Contents

/-- The call is a push of `x` that has not returned. -/
def Call.carries (acc : List α) (x : α) : Call α → Prop
  | .pushLoad y | .pushSeq y _ | .pushCas y _ | .pushWrite y _ => y = x
  | .pushStore pos => acc[pos]? = some x
  | _ => False

section Answers
variable {k : Nat} {s u : State Role α} {b : Bool}

/-- "Full" is answered when exactly `capacity` accepted items have not been returned. -/
theorem full_exact (hk : 1 ≤ k) (hr : (spsc α k).Reachable s) {x : α} {pos : Nat}
    (hc : s.call .producer = .pushSeq x pos) (hs : (s.queue.slot pos).sequence < pos) :
    s.published.length = (returned s.history).length + 2 ^ k := by
  have h := alone_of_reachable hk hr
  have hi := inv_of_reachable hk (reachable_threads hr)
  have hl : Local _ s.queue _ (.pushSeq x pos) := hc ▸ hi.locals .producer
  obtain ⟨hcap, hfull⟩ := hi.full_answer hl hs
  have hret := h.returned_length
  have hpub : s.publishedCount =
      s.queue.enqueuePos := by simp [State.publishedCount, hc, Call.pushing]
  rw [length_published hk hr, hpub]
  cases hp : (s.call .worker).popping with
  | none =>
    rw [hp] at hret
    obtain he | ⟨t, ht⟩ := hfull
    · simp only [Option.isSome_none, Bool.toNat_false] at hret
      omega
    · cases t with
      | producer => simp [hc, Call.popping] at ht
      | worker => rw [hp] at ht; cases ht
  | some p =>
    have hlast := h.last_pop p hp
    have hdrain := hi.popping_drains hp
    rw [hp] at hret
    simp only [Option.isSome_some, Bool.toNat_true] at hret
    obtain he | ⟨t, ht⟩ := hfull
    · omega
    · cases t with
      | producer => simp [hc, Call.popping] at ht
      | worker =>
        rw [hp] at ht
        have := Option.some.inj ht
        omega

/-- "Empty" is answered when everything that has been accepted has been taken. -/
theorem empty_exact (hk : 1 ≤ k) (hr : (spsc α k).Reachable s) {pos : Nat}
    (hc : s.call .worker = .popSeq pos) (hs : (s.queue.slot pos).sequence ≤ pos) :
    taken s.history = s.published := by
  have h := alone_of_reachable hk hr
  have hi := inv_of_reachable hk (reachable_threads hr)
  have hl : Local _ s.queue _ (.popSeq pos) := hc ▸ hi.locals .worker
  have htaken : s.takenCount = s.queue.dequeuePos := by simp [State.takenCount, hc, Call.taking]
  have hcount : s.publishedCount = s.queue.dequeuePos := by
    have hle := h.dequeuePos_le hi
    have hpub : s.publishedCount ≤ s.queue.enqueuePos := Nat.sub_le _ _
    obtain he | ⟨t, ht⟩ := hi.empty_answer hl hs
    · omega
    · cases t with
      | producer =>
        have hlt := (hi.pushing_spec ht).2.1
        have := (h.lt_publishedCount hlt).not.mpr (not_not.mpr ht)
        omega
      | worker => simp [hc, Call.pushing] at ht
  rw [h.taken_eq, State.published, htaken, hcount]

/-- One step of a push of `x`: it goes on, or it returns with the item
published, or it returns the item to its caller. -/
theorem producer_step (hk : 1 ≤ k) (hr : (spsc α k).Reachable s) {x : α}
    (hx : (s.call .producer).carries (accepted s.history) x) (hstep : s.step (.step .producer b) = some u) :
    u.call .worker = s.call .worker ∧ returned u.history = returned s.history ∧
      (((u.call .producer).result = none ∧ (u.call .producer).carries (accepted u.history) x ∧
          u.published = s.published) ∨
        ((u.call .producer).result = some (.pushed (.ok ())) ∧ u.published = s.published ++ [x]) ∨
        ((u.call .producer).result = some (.pushed (.error x)) ∧ u.published = s.published ∧
          s.published.length = (returned s.history).length + 2 ^ k)) := by
  have h := alone_of_reachable hk hr
  have hi := inv_of_reachable hk (reachable_threads hr)
  obtain ⟨_, _, ha, _⟩ | ⟨t, b', q', c', ha, hm, rfl⟩ := step_cases hstep
  · cases ha
  · cases ha
    obtain ⟨_, _, _, _, hret⟩ := producer_move (t := Role.producer) h.pushes hm h.last_push
    have hl := hi.locals .producer
    have hlast := h.last_push
    refine ⟨by simp, by simp [hret], ?_⟩
    simp only [Function.update_self, State.published, State.publishedCount]
    generalize hc : s.call .producer = c at hx hm hl hlast
    cases hm with
    | pushClaim y pos he =>
      obtain rfl : y = x := hx
      refine Or.inl ⟨rfl, rfl, ?_⟩
      simp [observe, accepted, Call.pushing, ← he, ← hi.length]
    | write y pos =>
      obtain rfl : y = x := hx
      exact Or.inl ⟨rfl, by simpa [observe, accepted, Call.carries] using hl.2.2.2.2,
        by simp [observe, accepted, Call.pushing]⟩
    | publish pos =>
      have hpos := hlast pos rfl
      refine Or.inr (Or.inl ⟨rfl, ?_⟩)
      have hitem : (accepted s.history)[pos]? = some x := hx
      simp [observe, accepted, Call.pushing, ← hpos, List.take_add_one]
      exact hitem
    | pushFull y pos hs =>
      obtain rfl : y = x := hx
      have hfull := full_exact hk hr hc hs
      rw [State.published, State.publishedCount, hc] at hfull
      exact Or.inr (Or.inr ⟨rfl, by simp [observe, accepted, Call.pushing], hfull⟩)
    | pushLoad y | pushFree y | pushStale y | pushRetry y =>
      obtain rfl : y = x := hx
      exact Or.inl ⟨rfl, rfl, by simp [observe, accepted, Call.pushing]⟩
    | _ => cases hx

/-- One step of a pop: it goes on, or it returns an item, or it finds the queue empty. -/
theorem worker_step (hk : 1 ≤ k) (hr : (spsc α k).Reachable s)
    (hstep : s.step (.step .worker b) = some u) :
    u.call .producer = s.call .producer ∧ accepted u.history = accepted s.history ∧ u.published = s.published ∧
      (((u.call .worker).result = none ∧ (returned u.history).length = (returned s.history).length) ∨
        (∃ x, (u.call .worker).result = some (.popped (some x)) ∧
          (returned u.history).length = (returned s.history).length + 1) ∨
        ((u.call .worker).result = some (.popped none) ∧
          (returned u.history).length = (returned s.history).length ∧ taken s.history = s.published)) := by
  have h := alone_of_reachable hk hr
  have hi := inv_of_reachable hk (reachable_threads hr)
  have hlen : s.queue.dequeuePos ≤ (accepted s.history).length := hi.length ▸ hi.deq_le
  obtain ⟨_, _, ha, _⟩ | ⟨t, b', q', c', ha, hm, rfl⟩ := step_cases hstep
  · cases ha
  · cases ha
    have hpops := h.pops
    have hl := hi.locals .worker
    obtain ⟨_, henq, _, hacc, _⟩ := worker_move (t := Role.worker) hpops hl hm hlen h.last_pop
    refine ⟨by simp, by simp [hacc], by simp [State.published, State.publishedCount, hacc, henq], ?_⟩
    simp only [Function.update_self]
    generalize hc : s.call .worker = c at hm hl hpops
    cases hm with
    | release pos r =>
      obtain ⟨x, hx⟩ : ∃ x, (accepted s.history)[pos]? = some x :=
        ⟨_, List.getElem?_eq_getElem (Nat.lt_of_lt_of_le hl.1 hlen)⟩
      exact Or.inr (Or.inl ⟨x, by rw [hl.2.2.2.2, hx]; rfl, by simp [observe, returned]⟩)
    | popEmpty pos hs =>
      exact Or.inr (Or.inr ⟨rfl, by simp [observe, returned], empty_exact hk hr hc hs⟩)
    | popLoad | popReady pos | popStale pos | popClaim pos | popRetry pos | take pos =>
      exact Or.inl ⟨rfl, by simp [observe, returned]⟩
    | _ => simp [Call.pops] at hpops

/-- A pop returns the oldest published item that no pop has returned. -/
theorem popped_item (hk : 1 ≤ k) (hr : (spsc α k).Reachable s)
    (hstep : s.step (.step .worker b) = some u) {x : α}
    (hx : (u.call .worker).result = some (.popped (some x))) :
    s.published[(returned s.history).length]? = some x := by
  have h := alone_of_reachable hk hr
  have hi := inv_of_reachable hk (reachable_threads hr)
  obtain ⟨_, _, ha, _⟩ | ⟨t, b', q', c', ha, hm, rfl⟩ := step_cases hstep
  · cases ha
  · cases ha
    have hl := hi.locals .worker
    have hlast := h.last_pop
    have hlen := h.returned_length
    simp only [Function.update_self] at hx
    generalize s.call .worker = c at hm hl hlast hlen
    cases hm with
    | release pos r =>
      have hpos := hlast pos rfl
      obtain rfl : r = some x := by simpa [Call.result] using hx
      obtain rfl : (returned s.history).length = pos := by
        simp only [Call.popping, Option.isSome_some, Bool.toNat_true] at hlen
        omega
      have hpub := h.dequeuePos_le hi
      rw [State.published, List.getElem?_take_of_lt (by omega)]
      exact hl.2.2.2.2.symm
    | _ => simp [Call.result] at hx

/-- A call that has just been made has not changed anything. -/
theorem published_start {t : Role} {op : Op α} (hstep : s.step (.call t op) = some u) :
    u.history = s.history ∧ u.published = s.published ∧ u.queue = s.queue ∧ (u.call t) = op.start ∧
      ∀ t', t' ≠ t → u.call t' = s.call t' := by
  obtain ⟨t', op', ha, hf, rfl⟩ | ⟨_, _, _, _, ha, _⟩ := step_cases hstep
  · cases ha
    have hno := owns_eq_none_iff.mp (owns_of_finished hf)
    refine ⟨rfl, ?_, rfl, by simp, fun t' ht' => by simp [ht']⟩
    have hpush : (Function.update s.call t op.start .producer).pushing =
        (s.call .producer).pushing := by
      by_cases ht : Role.producer = t
      · subst ht
        rw [Function.update_self, hno.1]
        cases op <;> rfl
      · rw [Function.update_of_ne ht]
    simp [State.published, State.publishedCount, hpush]
  · cases ha

end Answers

end ThreatEngine.Queue
