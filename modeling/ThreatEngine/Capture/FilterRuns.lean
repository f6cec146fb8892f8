import ThreatEngine.Capture.XdpFilter

/-! The packet filter over all that a machine receives: frames come on any queue and
are looked at by any processor. Of the kernel's helpers the results assume what the
kernel documents. -/
namespace ThreatEngine.Capture

/-- An IPv4 frame with room for the IP header, and for the TCP or UDP header that it announces. -/
structure Admitted (frame : List UInt8) : Prop where
  etherType : frame[12]? = some 0x08 ∧ frame[13]? = some 0x00
  full : ethhdrSize + iphdrSize ≤ frame.length
  fits : ∀ t : Transport, frame[ethhdrSize + 9]? = some t.number →
    ethhdrSize + headerLength frame + t.size ≤ frame.length

structure Arrival (κ : Type) where
  cpu : κ
  queue : UInt32
  frame : List UInt8

section Frames
variable {frame : List UInt8}

theorem Transport.number_inj {t t' : Transport} : t.number = t'.number ↔ t = t' := by
  cases t <;> cases t' <;> decide

theorem Admitted.of_carries {t : Transport} (h : Carries frame t) : Admitted frame ↔
    ethhdrSize + iphdrSize ≤ frame.length ∧
      ethhdrSize + headerLength frame + t.size ≤ frame.length := by
  refine ⟨fun ha => ⟨ha.full, ha.fits t h.protocol⟩, fun ⟨hfull, hfits⟩ => ⟨h.etherType, hfull, ?_⟩⟩
  intro t' ht'
  have hnumber : t.number = t'.number := Option.some.inj (h.protocol.symm.trans ht')
  exact Transport.number_inj.mp hnumber ▸ hfits

theorem isIpv4_eq (h : ethhdrSize ≤ frame.length) :
    isIpv4 frame = some (decide (frame[12]? = some 0x08 ∧ frame[13]? = some 0x00)) := by
  have hlen : 14 ≤ frame.length := h
  have hhigh : frame[12]? = some frame[12] := List.getElem?_eq_getElem (by omega)
  have hlow : frame[13]? = some frame[13] := List.getElem?_eq_getElem (by omega)
  rw [isIpv4, hhigh, hlow]
  simp [Option.bind_eq_bind, Bool.beq_eq_decide_eq]

/-- A frame that announces neither TCP nor UDP. -/
theorem shouldForward_of_other (hipv4 : frame[12]? = some 0x08 ∧ frame[13]? = some 0x00)
    (hfull : ethhdrSize + iphdrSize ≤ frame.length)
    (hother : ∀ t : Transport, frame[ethhdrSize + 9]? ≠ some t.number) :
    shouldForwardToUserspace frame = some 1 := by
  have heth : ¬ frame.length < ethhdrSize := by omega
  have hbits : isIpv4 frame = some true := by
    rw [isIpv4_eq (Nat.not_lt.mp heth), decide_eq_true hipv4]
  have hlt : ¬ frame.length < ethhdrSize + iphdrSize := Nat.not_lt.mpr hfull
  obtain ⟨proto, hproto⟩ : ∃ proto, protocol frame = some proto :=
    ⟨_, List.getElem?_eq_getElem (Nat.lt_of_lt_of_le (by decide) hfull)⟩
  have htcp : proto ≠ Transport.tcp.number := fun h => hother .tcp (h ▸ hproto)
  have hudp : proto ≠ Transport.udp.number := fun h => hother .udp (h ▸ hproto)
  simp [shouldForwardToUserspace, heth, hbits, hlt, hproto, htcp, hudp]

/-- The filter forwards the admitted frames. -/
theorem verdict_eq_one_iff (frame : List UInt8) : verdict frame = 1 ↔ Admitted frame := by
  by_cases heth : frame.length < ethhdrSize
  · have hnot : ¬ Admitted frame := fun ha => by have := ha.full; omega
    simp [verdict, shouldForwardToUserspace, heth, hnot]
  have hbits := isIpv4_eq (Nat.not_lt.mp heth)
  by_cases hipv4 : frame[12]? = some 0x08 ∧ frame[13]? = some 0x00
  · by_cases hfull : ethhdrSize + iphdrSize ≤ frame.length
    · by_cases hcarried : ∃ t : Transport, frame[ethhdrSize + 9]? = some t.number
      · obtain ⟨t, ht⟩ := hcarried
        have hcarries : Carries frame t := ⟨hipv4, ht⟩
        rw [verdict, shouldForward_of_carries hcarries, Admitted.of_carries hcarries]
        simp
      · have hother : ∀ t : Transport, frame[ethhdrSize + 9]? ≠ some t.number :=
          fun t ht => hcarried ⟨t, ht⟩
        have hadmitted : Admitted frame := ⟨hipv4, hfull, fun t ht => absurd ht (hother t)⟩
        simp [verdict, shouldForward_of_other hipv4 hfull hother, hadmitted]
    · have hnot : ¬ Admitted frame := fun ha => hfull ha.full
      have hlt : frame.length < ethhdrSize + iphdrSize := Nat.not_le.mp hfull
      rw [decide_eq_true hipv4] at hbits
      simp [verdict, shouldForwardToUserspace, heth, hbits, hlt, hnot]
  · have hnot : ¬ Admitted frame := fun ha => hipv4 ha.etherType
    rw [decide_eq_false hipv4] at hbits
    simp [verdict, shouldForwardToUserspace, heth, hbits, hnot]

instance : DecidablePred Admitted := fun frame =>
  decidable_of_iff (verdict frame = 1) (verdict_eq_one_iff frame)

end Frames

/-- `xsks_map`: the queues that have a socket, of at most 64. -/
abbrev XsksMap := Fin 64 → Bool

def HasSocket (xsks : XsksMap) (queue : UInt32) : Prop :=
  ∃ h : queue.toNat < 64, xsks ⟨queue.toNat, h⟩ = true

instance (xsks : XsksMap) (queue : UInt32) : Decidable (HasSocket xsks queue) :=
  inferInstanceAs (Decidable (∃ _ : _, _))

/-- What is done with an arrival. -/
def fate {κ : Type} (xsks : XsksMap) (arrival : Arrival κ) : XdpAction :=
  if ¬ Admitted arrival.frame then .drop
  else if HasSocket xsks arrival.queue then .redirect else .pass

section Runs
variable {κ π : Type} [DecidableEq π]

/-- What the kernel documents of the helpers that each processor calls. -/
structure Documented (kernel : κ → Helpers π) (xsks : XsksMap) : Prop where
  /-- An array has the elements below `max_entries`, here 2. -/
  elements : ∀ cpu idx, ((kernel cpu).bpfMapLookupElem idx).isSome ↔ idx < 2
  /-- Every processor has elements of its own, and no two indices share one. -/
  perCpu : ∀ {cpu idx cpu' idx' count}, (kernel cpu).bpfMapLookupElem idx = some count →
    (kernel cpu').bpfMapLookupElem idx' = some count → cpu = cpu' ∧ idx = idx'
  /-- A queue without a socket gets the action of the flags, which cannot be a redirection. -/
  redirect : ∀ cpu queue flags, flags ≠ XdpAction.redirect →
    (kernel cpu).bpfRedirectMap queue flags = if HasSocket xsks queue then .redirect else flags

/-- The program on every frame in turn, with the helpers of its processor. -/
def filterRun (kernel : κ → Helpers π) :
    (π → UInt64) → List (Arrival κ) → Option (List XdpAction × (π → UInt64))
  | memory, [] => some ([], memory)
  | memory, arrival :: arrivals => do
    let first ← xdpFilterProg (kernel arrival.cpu) arrival.queue memory arrival.frame
    let rest ← filterRun kernel first.2 arrivals
    return (first.1 :: rest.1, rest.2)

variable {kernel : κ → Helpers π} {xsks : XsksMap}

theorem bumpCounter_self {cpu : κ} {idx : UInt32} {count : π}
    (hcount : (kernel cpu).bpfMapLookupElem idx = some count) (memory : π → UInt64) :
    bumpCounter (kernel cpu) idx memory count = memory count + 1 := by
  rw [bumpCounter, hcount]
  exact Function.update_self _ _ _

theorem bumpCounter_of_ne {cpu : κ} {idx : UInt32} {count : π}
    (hcount : (kernel cpu).bpfMapLookupElem idx ≠ some count) (memory : π → UInt64) :
    bumpCounter (kernel cpu) idx memory count = memory count := by
  rw [bumpCounter]
  cases hfound : (kernel cpu).bpfMapLookupElem idx with
  | none => rfl
  | some other =>
    refine Function.update_of_ne ?_ _ _
    rintro rfl
    exact hcount hfound

theorem xdpFilterProg_eq (h : Documented kernel xsks) (memory : π → UInt64)
    (arrival : Arrival κ) :
    xdpFilterProg (kernel arrival.cpu) arrival.queue memory arrival.frame = some (fate xsks arrival,
      bumpCounter (kernel arrival.cpu) (if Admitted arrival.frame then 1 else 0) memory) := by
  obtain ⟨hverdict, hbit⟩ := verdict_eq arrival.frame
  rw [fate]
  by_cases hadmitted : Admitted arrival.frame
  · rw [(verdict_eq_one_iff _).mpr hadmitted] at hverdict
    rw [xdpFilterProg_forward hverdict, h.redirect _ _ _ (by decide), if_neg (not_not.mpr hadmitted),
      if_pos hadmitted]
  · rw [hbit.resolve_right fun hone => hadmitted ((verdict_eq_one_iff _).mp hone)] at hverdict
    rw [xdpFilterProg_drop hverdict, if_pos hadmitted, if_neg hadmitted]

variable [DecidableEq κ]

/-- One processor's step, seen from the element of any index of any processor. -/
theorem bumpCounter_apply (h : Documented kernel xsks) {cpu cpu' : κ} {idx idx' : UInt32}
    {count : π} (hcount : (kernel cpu').bpfMapLookupElem idx' = some count) (memory : π → UInt64) :
    bumpCounter (kernel cpu) idx memory count =
      memory count + if cpu = cpu' ∧ idx = idx' then 1 else 0 := by
  by_cases hsame : cpu = cpu' ∧ idx = idx'
  · obtain ⟨rfl, rfl⟩ := hsame
    rw [bumpCounter_self hcount, if_pos ⟨rfl, rfl⟩]
  · rw [bumpCounter_of_ne fun hfound => hsame (h.perCpu hfound hcount), if_neg hsame, UInt64.add_zero]

def droppedOn (cpu : κ) (arrivals : List (Arrival κ)) : Nat :=
  arrivals.countP fun arrival => arrival.cpu = cpu ∧ ¬ Admitted arrival.frame

def forwardedOn (cpu : κ) (arrivals : List (Arrival κ)) : Nat :=
  arrivals.countP fun arrival => arrival.cpu = cpu ∧ Admitted arrival.frame

theorem droppedOn_cons (cpu : κ) (arrival : Arrival κ) (arrivals : List (Arrival κ)) :
    droppedOn cpu (arrival :: arrivals) = droppedOn cpu arrivals +
      if arrival.cpu = cpu ∧ ¬ Admitted arrival.frame then 1 else 0 := by
  simp [droppedOn, List.countP_cons]

theorem forwardedOn_cons (cpu : κ) (arrival : Arrival κ) (arrivals : List (Arrival κ)) :
    forwardedOn cpu (arrival :: arrivals) = forwardedOn cpu arrivals +
      if arrival.cpu = cpu ∧ Admitted arrival.frame then 1 else 0 := by
  simp [forwardedOn, List.countP_cons]

/-- The two counters of every processor have grown by its dropped and its
forwarded frames, and nothing else has been written. -/
structure Accounted (kernel : κ → Helpers π) (memory : π → UInt64) (arrivals : List (Arrival κ))
    (memory' : π → UInt64) : Prop where
  dropped : ∀ cpu, ∃ count, (kernel cpu).bpfMapLookupElem 0 = some count ∧
    memory' count = memory count + (droppedOn cpu arrivals).toUInt64
  forwarded : ∀ cpu, ∃ count, (kernel cpu).bpfMapLookupElem 1 = some count ∧
    memory' count = memory count + (forwardedOn cpu arrivals).toUInt64
  unchanged : ∀ {count}, (∀ cpu idx, (kernel cpu).bpfMapLookupElem idx ≠ some count) →
    memory' count = memory count

/-- The step lemma of the counters. -/
theorem Accounted.cons (h : Documented kernel xsks) {memory memory' : π → UInt64}
    {arrival : Arrival κ} {arrivals : List (Arrival κ)}
    (hrest : Accounted kernel (bumpCounter (kernel arrival.cpu)
      (if Admitted arrival.frame then 1 else 0) memory) arrivals memory') :
    Accounted kernel memory (arrival :: arrivals) memory' where
  dropped cpu := by
    obtain ⟨count, hcount, hsum⟩ := hrest.dropped cpu
    refine ⟨count, hcount, ?_⟩
    rw [hsum, droppedOn_cons, bumpCounter_apply h hcount]
    by_cases hcpu : arrival.cpu = cpu
    · by_cases hadmitted : Admitted arrival.frame
      · simp [hcpu, hadmitted]
      · simp [hcpu, hadmitted, UInt64.add_assoc, UInt64.add_comm 1]
    · simp [hcpu]
  forwarded cpu := by
    obtain ⟨count, hcount, hsum⟩ := hrest.forwarded cpu
    refine ⟨count, hcount, ?_⟩
    rw [hsum, forwardedOn_cons, bumpCounter_apply h hcount]
    by_cases hcpu : arrival.cpu = cpu
    · by_cases hadmitted : Admitted arrival.frame
      · simp [hcpu, hadmitted, UInt64.add_assoc, UInt64.add_comm 1]
      · simp [hcpu, hadmitted]
    · simp [hcpu]
  unchanged hcount := (hrest.unchanged hcount).trans (bumpCounter_of_ne (hcount _ _) _)

/-- No frame stops the filter, what is done with a frame depends on that frame and its queue only,
and every processor's counters have grown by the frames that it has dropped and forwarded. -/
theorem filter_accounts (h : Documented kernel xsks) (memory : π → UInt64)
    (arrivals : List (Arrival κ)) : ∃ memory',
      filterRun kernel memory arrivals = some (arrivals.map (fate xsks), memory') ∧
      Accounted kernel memory arrivals memory' := by
  induction arrivals generalizing memory with
  | nil =>
    refine ⟨memory, rfl, ⟨fun cpu => ?_, fun cpu => ?_, fun _ => rfl⟩⟩
    · obtain ⟨count, hcount⟩ := Option.isSome_iff_exists.mp ((h.elements cpu 0).mpr (by decide))
      exact ⟨count, hcount, by simp [droppedOn]⟩
    · obtain ⟨count, hcount⟩ := Option.isSome_iff_exists.mp ((h.elements cpu 1).mpr (by decide))
      exact ⟨count, hcount, by simp [forwardedOn]⟩
  | cons arrival arrivals ih =>
    obtain ⟨memory', hrun, hrest⟩ := ih (bumpCounter (kernel arrival.cpu)
      (if Admitted arrival.frame then 1 else 0) memory)
    refine ⟨memory', ?_, hrest.cons h⟩
    rw [filterRun, xdpFilterProg_eq h, Option.bind_eq_bind, Option.bind_some, hrun]
    rfl

end Runs

/-- A kernel whose counters lie at their processor and index. -/
def indexed (xsks : XsksMap) (cpu : Bool) : Helpers (Bool × UInt32) where
  bpfMapLookupElem idx := if idx < 2 then some (cpu, idx) else none
  bpfRedirectMap queue flags := if HasSocket xsks queue then .redirect else flags

theorem documented_indexed (xsks : XsksMap) : Documented (indexed xsks) xsks where
  elements cpu idx := by
    simp [indexed]
  perCpu {cpu idx cpu' idx' count} hfound hfound' := by
    simp only [indexed, Option.ite_none_right_eq_some] at hfound hfound'
    exact Prod.mk.inj (Option.some.inj (hfound.2.trans hfound'.2.symm))
  redirect _ _ _ _ := rfl

/-- A TCP frame to a queue with a socket and to one without, and a truncated frame. -/
def threeArrivals : List (Arrival Bool) :=
  let segment := List.replicate 12 0 ++ [0x08, 0x00, 0x45] ++ List.replicate 8 0 ++ [6] ++
    List.replicate 30 0
  [⟨false, 0, segment⟩, ⟨true, 5, segment⟩, ⟨true, 0, segment.take 50⟩]

theorem filter_accounts_threeArrivals : ∃ memory,
    filterRun (indexed (· = 0)) (fun _ => 7) threeArrivals =
      some ([.redirect, .pass, .drop], memory) ∧
    memory (false, 0) = 7 ∧ memory (false, 1) = 8 ∧ memory (true, 0) = 8 ∧ memory (true, 1) = 8 := by
  obtain ⟨memory, hrun, hcounted⟩ :=
    filter_accounts (documented_indexed (· = 0)) (fun _ => 7) threeArrivals
  have hdropped (cpu : Bool) : memory (cpu, 0) = 7 + (droppedOn cpu threeArrivals).toUInt64 := by
    obtain ⟨count, hcount, hsum⟩ := hcounted.dropped cpu
    exact Option.some.inj hcount ▸ hsum
  have hforwarded (cpu : Bool) : memory (cpu, 1) = 7 + (forwardedOn cpu threeArrivals).toUInt64 := by
    obtain ⟨count, hcount, hsum⟩ := hcounted.forwarded cpu
    exact Option.some.inj hcount ▸ hsum
  exact ⟨memory, hrun, hdropped false, hforwarded false, hdropped true, hforwarded true⟩

end ThreatEngine.Capture
