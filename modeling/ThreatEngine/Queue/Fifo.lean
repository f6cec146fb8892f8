import ThreatEngine.Lib.Mealy
import ThreatEngine.Queue.Sequential

/-! The queue in the hands of one thread is a bounded FIFO, except that at
capacity 1 a slot that is full for `pop` is free for the next `push`. -/
namespace ThreatEngine.Queue
variable {α : Type*}

/-- The bounded FIFO: `push` is refused at `capacity` items, `pop` answers the oldest. -/
def fifo (α : Type*) (capacity : Nat) : Mealy.Machine (List α) (Op α) (Result α) where
  init := []
  step
    | held, .push item =>
      if held.length < capacity then (held ++ [item], .pushed (.ok ())) else (held, .pushed (.error item))
    | [], .pop => ([], .popped none)
    | item :: held, .pop => (held, .popped (some item))

/-- Every call returns, with the results of the bounded FIFO. -/
def MpmcQueue.ServesAsFifo (A : Wrap) (capacity : Nat) (q : MpmcQueue α) (held : List α)
    (ops : List (Op α × Nat)) : Prop :=
  ∃ fuel, q.serve A fuel ops = some ((fifo α capacity).outputs held (ops.map Prod.fst))

/-- At no call of the sequence is an item pushed while another one is held. -/
def PushesWhenEmpty (capacity : Nat) (held : List α) (ops : List (Op α)) : Prop :=
  ∀ pre x post, ops = pre ++ .push x :: post → (fifo α capacity).after held pre = []

section Calls
variable {A : Wrap} {q : MpmcQueue α} {pos : Nat} {r : MpmcQueue α × Result α}

theorem yields_push {x : α} {spurious : Nat}
    (h : Loop.Yields (Solo.step A) Solo.done ⟨q, .pushSeq x q.enqueuePos, spurious⟩ r) :
    Loop.Yields (Solo.step A) Solo.done ⟨q, (Op.push x).start, spurious⟩ r := .of_step rfl rfl h

theorem yields_pop {spurious : Nat}
    (h : Loop.Yields (Solo.step A) Solo.done ⟨q, .popSeq q.dequeuePos, spurious⟩ r) :
    Loop.Yields (Solo.step A) Solo.done ⟨q, Op.pop.start, spurious⟩ r := .of_step rfl rfl h

theorem yields_push_free {x : α} (hd : pushDiff A (q.slot pos).sequence pos = 0)
    (he : q.enqueuePos = pos) (spurious : Nat) :
    Loop.Yields (Solo.step A) Solo.done ⟨q, .pushSeq x pos, spurious⟩ (q.pushed A pos x, .pushed (.ok ())) := by
  have hseq (n : Nat) : Solo.step A ⟨q, .pushSeq x pos, n⟩ = some ⟨q, .pushCas x pos, n⟩ := by
    simp [Solo.step, Call.step, Call.comparing, hd]
  induction spurious with
  | zero =>
    refine .of_step rfl (hseq 0) (.of_step (u := ⟨{ q with enqueuePos := A.usize (pos + 1) }, .pushWrite x pos, 0⟩)
      rfl ?_ (.of_step rfl rfl (.of_step rfl rfl (.of_done rfl))))
    simp [Solo.step, Call.step, Call.comparing, he]
  | succ n ih =>
    refine .of_step rfl (hseq (n + 1)) (.of_step (u := ⟨q, .pushSeq x pos, n⟩) rfl ?_ ih)
    simp [Solo.step, Call.step, Call.comparing, he]

theorem yields_push_full {x : α} (hd : pushDiff A (q.slot pos).sequence pos < 0) (spurious : Nat) :
    Loop.Yields (Solo.step A) Solo.done ⟨q, .pushSeq x pos, spurious⟩ (q, .pushed (.error x)) := by
  refine .of_step (u := ⟨q, .pushFull x, spurious⟩) rfl ?_ (.of_done rfl)
  simp [Solo.step, Call.step, Call.comparing, hd, hd.ne]

theorem yields_pop_full (hd : popDiff A (q.slot pos).sequence pos = 0) (he : q.dequeuePos = pos)
    (spurious : Nat) :
    Loop.Yields (Solo.step A) Solo.done ⟨q, .popSeq pos, spurious⟩
      (q.popped A pos, .popped (q.slot pos).value) := by
  have hseq (n : Nat) : Solo.step A ⟨q, .popSeq pos, n⟩ = some ⟨q, .popCas pos, n⟩ := by
    simp [Solo.step, Call.step, Call.comparing, hd]
  induction spurious with
  | zero =>
    refine .of_step rfl (hseq 0) (.of_step (u := ⟨{ q with dequeuePos := A.usize (pos + 1) }, .popTake pos, 0⟩)
      rfl ?_ (.of_step rfl rfl (.of_step rfl rfl (.of_done rfl))))
    simp [Solo.step, Call.step, Call.comparing, he]
  | succ n ih =>
    refine .of_step rfl (hseq (n + 1)) (.of_step (u := ⟨q, .popSeq pos, n⟩) rfl ?_ ih)
    simp [Solo.step, Call.step, Call.comparing, he]

theorem yields_pop_empty (hd : popDiff A (q.slot pos).sequence pos < 0) (spurious : Nat) :
    Loop.Yields (Solo.step A) Solo.done ⟨q, .popSeq pos, spurious⟩ (q, .popped none) := by
  refine .of_step (u := ⟨q, .popEmpty, spurious⟩) rfl ?_ (.of_done rfl)
  simp [Solo.step, Call.step, Call.comparing, hd, hd.ne]

end Calls

section Refinement
variable {A : Wrap} {cap d : Nat} {q : MpmcQueue α} {items : List α}

/-- How far the tail's slot is ahead of the tail. -/
theorem Holds.push_diff (h : Holds A cap q d items) (hA : A.Lawful cap) :
    pushDiff A (q.slot q.enqueuePos).sequence q.enqueuePos =
      if items.length < cap then 0 else 1 - (cap : Int) := by
  have hpos := h.cap_pos
  have hlen := h.length_le
  rw [h.enq, h.slot_usize hA]
  split
  · next hlt =>
    rw [h.sequence _ hlt, if_neg (lt_irrefl _), hA.push_diff _ _ le_rfl (by omega)]
    omega
  · next hge =>
    have hfull : items.length = cap := le_antisymm hlen (Nat.not_lt.mp hge)
    have hslot : q.slot (d + items.length) = q.slot (d + 0) := h.same_slot (by simp [hfull])
    rw [hslot, h.sequence 0 hpos, if_pos (by omega), hA.push_diff _ _ (by omega) (by omega)]
    push_cast
    omega

theorem Holds.pop_diff (h : Holds A cap q d items) (hA : A.Lawful cap) :
    popDiff A (q.slot q.dequeuePos).sequence q.dequeuePos = if items = [] then -1 else 0 := by
  rw [h.deq, h.slot_usize hA]
  have hs := h.sequence 0 h.cap_pos
  rw [Nat.add_zero] at hs
  cases items with
  | nil =>
    rw [hs, if_neg (by simp), hA.pop_diff _ _ le_rfl (by omega)]
    simp
  | cons x items =>
    rw [hs, if_pos (by simp), hA.pop_diff _ _ (by omega) le_rfl]
    simp

/-- A call returns what the FIFO answers, unless it pushes onto a full queue of capacity 1. -/
theorem Holds.returns (h : Holds A cap q d items) (hA : A.Lawful cap) (op : Op α) (spurious : Nat)
    (hop : ∀ x, op = .push x → items.length < cap ∨ 2 ≤ cap) :
    ∃ q' d', Loop.Yields (Solo.step A) Solo.done ⟨q, op.start, spurious⟩
      (q', ((fifo α cap).step items op).2) ∧ Holds A cap q' d' ((fifo α cap).step items op).1 := by
  cases op with
  | push x =>
    have hd := h.push_diff hA
    by_cases hlt : items.length < cap
    · rw [if_pos hlt] at hd
      simp only [fifo, if_pos hlt]
      exact ⟨_, d, yields_push (yields_push_free hd rfl spurious), h.enq ▸ h.push hA hlt x⟩
    · rw [if_neg hlt] at hd
      have hcap : 2 ≤ cap := (hop x rfl).resolve_left hlt
      simp only [fifo, if_neg hlt]
      exact ⟨q, d, yields_push (yields_push_full (by omega) spurious), h⟩
  | pop =>
    have hd := h.pop_diff hA
    cases items with
    | nil => exact ⟨q, d, yields_pop (yields_pop_empty (by simp [hd]) spurious), h⟩
    | cons x items =>
      have hv := h.value 0 h.cap_pos
      rw [Nat.add_zero, List.getElem?_cons_zero, ← h.slot_usize hA, ← h.deq] at hv
      have hy := yields_pop (yields_pop_full (by simpa using hd) rfl spurious)
      rw [hv] at hy
      exact ⟨_, d + 1, hy, h.deq ▸ h.pop hA⟩

/-- At capacity 1 a push onto the held item is accepted. -/
theorem Holds.overwrites (h : Holds A 1 q d items) (hA : A.Lawful 1) (hne : items ≠ []) (x : α)
    (spurious : Nat) :
    Loop.Yields (Solo.step A) Solo.done ⟨q, (Op.push x).start, spurious⟩
      (q.pushed A q.enqueuePos x, .pushed (.ok ())) := by
  have hd := h.push_diff hA
  rw [if_neg (Nat.not_lt.mpr (List.length_pos_of_ne_nil hne))] at hd
  exact yields_push (yields_push_free (by simpa using hd) rfl spurious)

end Refinement

section Sequences
variable {A : Wrap} {cap : Nat} {q : MpmcQueue α}

theorem serve_mono {n m : Nat} (hnm : n ≤ m) {ops : List (Op α × Nat)} {rs : List (Result α)}
    (h : q.serve A n ops = some rs) : q.serve A m ops = some rs := by
  induction ops generalizing q rs with
  | nil => exact h
  | cons a ops ih =>
    obtain ⟨r, hr, hrest⟩ := Option.bind_eq_some_iff.mp h
    obtain ⟨rs', hrs, rfl⟩ := Option.map_eq_some_iff.mp hrest
    rw [MpmcQueue.serve, Loop.run_mono hnm hr, Option.bind_some, ih hrs, Option.map_some]

theorem yields_of_serve_cons {fuel : Nat} {op : Op α} {spurious : Nat} {ops : List (Op α × Nat)}
    {rs : List (Result α)} (h : q.serve A fuel ((op, spurious) :: ops) = some rs) :
    ∃ q' r rs', Loop.Yields (Solo.step A) Solo.done ⟨q, op.start, spurious⟩ (q', r) ∧
      q'.serve A fuel ops = some rs' ∧ rs = r :: rs' := by
  obtain ⟨⟨q', r⟩, hr, hrest⟩ := Option.bind_eq_some_iff.mp h
  obtain ⟨rs', hrs, rfl⟩ := Option.map_eq_some_iff.mp hrest
  exact ⟨q', r, rs', ⟨fuel, hr⟩, hrs, rfl⟩

/-- The first call returns and the others are served after it. -/
theorem servesAsFifo_cons {held : List α} {op : Op α} {spurious : Nat} {ops : List (Op α × Nat)} :
    q.ServesAsFifo A cap held ((op, spurious) :: ops) ↔
      ∃ q', Loop.Yields (Solo.step A) Solo.done ⟨q, op.start, spurious⟩
        (q', ((fifo α cap).step held op).2) ∧
        q'.ServesAsFifo A cap ((fifo α cap).step held op).1 ops := by
  constructor
  · intro ⟨fuel, h⟩
    obtain ⟨q', r, rs, hy, hrs, he⟩ := yields_of_serve_cons h
    obtain ⟨rfl, rfl⟩ := List.cons.inj he
    exact ⟨q', hy, fuel, hrs⟩
  · intro ⟨q', ⟨n, hn⟩, ⟨m, hm⟩⟩
    refine ⟨max n m, ?_⟩
    rw [MpmcQueue.serve, Loop.run_mono (Nat.le_max_left n m) hn, Option.bind_some,
      serve_mono (Nat.le_max_right n m) hm]
    rfl

theorem pushesWhenEmpty_cons {held : List α} {op : Op α} {ops : List (Op α)} :
    PushesWhenEmpty cap held (op :: ops) ↔
      (∀ x, op = .push x → held = []) ∧ PushesWhenEmpty cap ((fifo α cap).step held op).1 ops := by
  constructor
  · intro h
    refine ⟨fun x hx => h [] x ops (by simp [hx]), fun pre x post he => ?_⟩
    exact h (op :: pre) x post (by simp [he])
  · intro ⟨hop, hops⟩ pre x post he
    cases pre with
    | nil => exact hop x (List.cons.inj he).1
    | cons a pre =>
      obtain ⟨rfl, he'⟩ := List.cons.inj he
      exact hops pre x post he'

theorem Holds.serves_iff {d : Nat} {held : List α} (h : Holds A cap q d held) (hA : A.Lawful cap)
    (ops : List (Op α × Nat)) :
    q.ServesAsFifo A cap held ops ↔ cap ≠ 1 ∨ PushesWhenEmpty cap held (ops.map Prod.fst) := by
  have hpos := h.cap_pos
  induction ops generalizing q d held with
  | nil =>
    refine iff_of_true ⟨0, rfl⟩ (Or.inr fun pre x post he => ?_)
    simp at he
  | cons a ops ih =>
    obtain ⟨op, spurious⟩ := a
    rw [servesAsFifo_cons, List.map_cons, pushesWhenEmpty_cons]
    by_cases hop : ∀ x, op = .push x → held.length < cap ∨ 2 ≤ cap
    · obtain ⟨q', d', hy, hh⟩ := h.returns hA op spurious hop
      have hrest := ih hh
      constructor
      · intro ⟨q'', hy', hs⟩
        obtain ⟨rfl, -⟩ := Prod.mk.inj (hy.unique hy')
        cases Nat.lt_or_ge 1 cap with
        | inl hlt => exact Or.inl hlt.ne'
        | inr hle =>
          refine Or.inr ⟨fun x hx => ?_, (hrest.mp hs).resolve_left (not_not.mpr (by omega))⟩
          have := (hop x hx).resolve_right (by omega)
          exact List.eq_nil_of_length_eq_zero (by omega)
      · intro hc
        exact ⟨q', hy, hrest.mpr (hc.imp_right And.right)⟩
    · -- a push onto the one item that fits
      push Not at hop
      obtain ⟨x, rfl, hfull, hcap⟩ := hop
      obtain rfl : cap = 1 := by omega
      have hne : held ≠ [] := List.ne_nil_of_length_pos (by omega)
      constructor
      · intro ⟨q', hy, _⟩
        have := congrArg Prod.snd (hy.unique (h.overwrites hA hne x spurious))
        simp only [fifo, if_neg (Nat.not_lt.mpr hfull)] at this
        cases this
      · intro hc
        exact absurd ((hc.resolve_left (by simp)).1 x rfl) hne

/-- The results are those of the bounded FIFO unless capacity 1 has an item overwritten. -/
theorem serves_as_fifo_iff {w capacity : Nat} (hw : capacity < 2 ^ w)
    (hq : MpmcQueue.new capacity = some q) (ops : List (Op α × Nat)) :
    q.ServesAsFifo (.release w) capacity [] ops ↔
      capacity ≠ 1 ∨ PushesWhenEmpty capacity [] (ops.map Prod.fst) := by
  unfold MpmcQueue.new at hq
  split at hq
  · next hp =>
    obtain ⟨k, rfl⟩ := hp
    obtain rfl := Option.some.inj hq
    have hA : (Wrap.release w).Lawful (2 ^ k) :=
      lawful_release ((Nat.pow_lt_pow_iff_right (by omega)).mp hw)
    exact (holds_ofCapacity hA).serves_iff hA ops
  · cases hq

theorem serves_as_fifo_two :
    (MpmcQueue.ofCapacity (α := Nat) 2 Nat.two_pos).ServesAsFifo (.release 64) 2 []
      [(.push 1, 0), (.push 2, 1), (.push 3, 0), (.pop, 2), (.pop, 0), (.pop, 0)] :=
  (serves_as_fifo_iff (by decide) (dif_pos (by decide)) _).mpr (Or.inl (by decide))

/-- Under any arithmetic that keeps what the queue needs, results are those of the bounded FIFO. -/
theorem serves_of_lawful {k : Nat} (hk : 1 ≤ k) (hA : A.Lawful (2 ^ k)) (ops : List (Op α × Nat)) :
    (MpmcQueue.ofCapacity (2 ^ k) (Nat.two_pow_pos k)).ServesAsFifo A (2 ^ k) [] ops :=
  ((holds_ofCapacity hA).serves_iff hA ops).mpr (Or.inl (Nat.one_lt_two_pow (Nat.one_le_iff_ne_zero.mp hk)).ne')

/-- Wrap-around is invisible to one thread: calls on counters and differences of
`w` bits have the results that they have on unbounded ones, however many there
are and however often their compare-exchanges fail spuriously in either run. -/
theorem wrap_around_harmless {w k : Nat} (hk : 1 ≤ k) (hkw : k ≤ w - 1)
    {ops ops' : List (Op α × Nat)}
    (hops : ops.map Prod.fst = ops'.map Prod.fst) (hq : MpmcQueue.new (2 ^ k) = some q) :
    ∃ results fuel, q.serve (.release w) fuel ops = some results ∧ q.serve .unbounded fuel ops' = some results := by
  have hnew : (MpmcQueue.new (2 ^ k) : Option (MpmcQueue α)) =
      some (.ofCapacity (2 ^ k) (Nat.two_pow_pos k)) :=
    dif_pos ⟨k, rfl⟩
  obtain rfl := Option.some.inj (hq.symm.trans hnew)
  obtain ⟨n, hn⟩ := serves_of_lawful hk (lawful_release (w := w) (by omega)) ops
  obtain ⟨m, hm⟩ := serves_of_lawful hk (lawful_unbounded (2 ^ k)) ops'
  rw [← hops] at hm
  exact ⟨_, max n m, serve_mono (Nat.le_max_left n m) hn, serve_mono (Nat.le_max_right n m) hm⟩

/-- Words of two bits, whose counters wrap after four operations. -/
theorem wrap_around_harmless_two : ∃ results fuel,
    (MpmcQueue.ofCapacity (α := Nat) 2 Nat.two_pos).serve (.release 2) fuel
      [(.push 1, 0), (.push 2, 0), (.pop, 1), (.push 3, 0), (.pop, 0), (.push 4, 0), (.push 5, 2), (.pop, 0)] = some results ∧
    (MpmcQueue.ofCapacity (α := Nat) 2 Nat.two_pos).serve .unbounded fuel
      [(.push 1, 0), (.push 2, 0), (.pop, 0), (.push 3, 0), (.pop, 0), (.push 4, 0), (.push 5, 0), (.pop, 0)] = some results :=
  wrap_around_harmless (k := 1) le_rfl le_rfl rfl (dif_pos (by decide))

/-- Capacity 1 after two pushes, the second onto the first one's item. -/
def overwritten : MpmcQueue Nat :=
  ((MpmcQueue.ofCapacity 1 Nat.one_pos).pushed (.release 64) 0 1).pushed (.release 64) 1 2

/-- The head's slot is now ahead of the head, so `pop` reloads the head for ever. -/
theorem overwritten_pop_never_returns (r : MpmcQueue Nat × Result Nat) :
    ¬ Loop.Yields (Solo.step (.release 64)) Solo.done ⟨overwritten, Op.pop.start, 0⟩ r := by
  refine Loop.not_yields (P := fun s => s = ⟨overwritten, .popLoad, 0⟩ ∨ s = ⟨overwritten, .popSeq 0, 0⟩)
    ?_ (Or.inl rfl)
  rintro s (rfl | rfl)
  · refine ⟨rfl, fun u hu => Or.inr ?_⟩
    exact (Option.some.inj hu).symm
  · refine ⟨rfl, fun u hu => Or.inl ?_⟩
    exact (Option.some.inj hu).symm

/-- The second of two pushes onto capacity 1 answers `Ok`, and the pop after it never returns. -/
theorem not_fifo_at_capacity_one :
    ∃ q : MpmcQueue Nat, MpmcQueue.new 1 = some q ∧
      ¬ q.ServesAsFifo (.release 64) 1 [] [(.push 1, 0), (.push 2, 0)] ∧
      ∀ fuel, q.serve (.release 64) fuel [(.push 1, 0), (.push 2, 0), (.pop, 0)] = none := by
  refine ⟨.ofCapacity 1 Nat.one_pos, dif_pos (by decide), ?_, fun fuel => ?_⟩
  · intro ⟨fuel, h⟩
    have h' := serve_mono (Nat.le_max_left fuel 5) h
    have hok : (MpmcQueue.ofCapacity 1 Nat.one_pos).serve (.release 64) 5 [(.push 1, 0), (.push 2, 0)] =
      some [.pushed (.ok ()), .pushed (.ok ())] := rfl
    rw [serve_mono (Nat.le_max_right fuel 5) hok] at h'
    cases h'
  · rw [Option.eq_none_iff_forall_ne_some]
    intro rs h
    obtain ⟨q₁, _, rs₁, hy₁, h₁, -⟩ := yields_of_serve_cons h
    obtain ⟨q₂, _, rs₂, hy₂, h₂, -⟩ := yields_of_serve_cons h₁
    obtain ⟨q₃, r, rs₃, hy₃, -, -⟩ := yields_of_serve_cons h₂
    obtain ⟨rfl, -⟩ := Prod.mk.inj (hy₁.unique (yields_push (yields_push_free rfl rfl 0)))
    obtain ⟨rfl, -⟩ := Prod.mk.inj (hy₂.unique (yields_push (yields_push_free rfl rfl 0)))
    exact overwritten_pop_never_returns (q₃, r) hy₃

end Sequences

end ThreatEngine.Queue
