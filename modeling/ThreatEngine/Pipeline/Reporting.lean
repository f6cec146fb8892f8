import ThreatEngine.Pipeline.Stages

/-! The steps that raise, count and store alerts. All others leave the store,
the detectors and the workers' alerts alone. -/
namespace ThreatEngine.Pipeline
open Queue
variable {n : Nat} {δ : Type}

/-- The alert that a worker has counted and not stored. -/
def Worker.recording : Worker → Option Alert
  | .storing _ _ alert _ => some alert
  | _ => none

/-- The alerts that a worker's detectors have raised and that are not counted yet. -/
def Worker.pending : Worker → List Alert
  | .detecting _ _ alerts | .storing _ _ _ alerts => alerts
  | _ => []

/-- Whether a step raises, counts or stores. -/
def Action.reports : Action n → Bool
  | .detect _ _ | .fire _ | .store _ => true
  | _ => false

/-- States that are the same to whoever looks at alerts. -/
structure SameReports (s u : State n δ) : Prop where
  alerts : u.alerts = s.alerts
  fired : u.alertsFired = s.alertsFired
  detectors : u.detectors = s.detectors
  recording : (fun w => (u.worker w).recording) = fun w => (s.worker w).recording
  pending : (fun w => (u.worker w).pending) = fun w => (s.worker w).pending

theorem recording_setWorker (s : State n δ) (w : Fin n) (c : Worker) :
    (fun v => ((s.setWorker w c).worker v).recording) =
      Function.update (fun v => (s.worker v).recording) w c.recording :=
  Function.comp_update Worker.recording s.worker w c

theorem pending_setWorker (s : State n δ) (w : Fin n) (c : Worker) :
    (fun v => ((s.setWorker w c).worker v).pending) =
      Function.update (fun v => (s.worker v).pending) w c.pending :=
  Function.comp_update Worker.pending s.worker w c

/-- A worker that moves with the alerts it has. -/
theorem sameReports_setWorker (s : State n δ) {w : Fin n} {c : Worker}
    (hrecording : c.recording = (s.worker w).recording)
    (hpending : c.pending = (s.worker w).pending) :
    SameReports s (s.setWorker w c) where
  alerts := rfl
  fired := rfl
  detectors := rfl
  recording := by
    rw [recording_setWorker, hrecording]
    exact Function.update_eq_self w fun v => (s.worker v).recording
  pending := by
    rw [pending_setWorker, hpending]
    exact Function.update_eq_self w fun v => (s.worker v).pending

/-- A step of the whole, by what it does to alerts. -/
inductive Report (D : Detectors δ) (s : State n δ) : Action n → State n δ → Prop where
  | quiet (a u) (ha : a.reports = false) (h : SameReports s u) : Report D s a u
  | detect (w now event kind kinds) (h : s.worker w = .detecting event (kind :: kinds) []) :
      Report D s (.detect w now)
        { s.setWorker w (.detecting event kinds (D.detect kind now event (s.detectors w)).2) with
          detectors := Function.update s.detectors w (D.detect kind now event (s.detectors w)).1 }
  | fire (w event kinds alert alerts) (h : s.worker w = .detecting event kinds (alert :: alerts)) :
      Report D s (.fire w)
        { s.setWorker w (.storing event kinds alert alerts) with toAppState := s.countAlert }
  | store (w event kinds alert alerts) (h : s.worker w = .storing event kinds alert alerts) :
      Report D s (.store w)
        { s.setWorker w (.detecting event kinds alerts) with toAppState := s.storeAlert alert }

theorem SameReports.refl (s : State n δ) : SameReports s s := ⟨rfl, rfl, rfl, rfl, rfl⟩

theorem SameReports.trans {s t u : State n δ} (h : SameReports s t) (h' : SameReports t u) :
    SameReports s u :=
  ⟨h'.alerts.trans h.alerts, h'.fired.trans h.fired, h'.detectors.trans h.detectors,
    h'.recording.trans h.recording, h'.pending.trans h.pending⟩

theorem sameReports_setQueue (s : State n δ) (w : Fin n) (q : Queue.State Role NetworkEvent) :
    SameReports s (s.setQueue w q) := ⟨rfl, rfl, rfl, rfl, rfl⟩

theorem sameReports_afterPush (s : State n δ) (event : NetworkEvent) (rest : List NetworkEvent)
    (r : Option (Result NetworkEvent)) : SameReports s (s.afterPush event rest r) := by
  unfold State.afterPush
  split <;> exact ⟨rfl, rfl, rfl, rfl, rfl⟩

theorem sameReports_afterPop (s : State n δ) {w : Fin n} (hw : s.worker w = .popping)
    (r : Option (Result NetworkEvent)) : SameReports s (s.afterPop w r) := by
  unfold State.afterPop
  split
  · exact sameReports_setWorker s (by rw [hw]; rfl) (by rw [hw]; rfl)
  · exact sameReports_setWorker s (by rw [hw]; rfl) (by rw [hw]; rfl)
  · exact .refl s

variable [NeZero n]

theorem report_of_step {D : Detectors δ} {s u : State n δ} {a : Action n}
    (h : step D s a = some u) :
    Report D s a u := by
  cases a with
  | nextBatch events =>
    simp only [step] at h
    split at h
    · obtain rfl := Option.some.inj h
      exact .quiet _ _ rfl ⟨rfl, rfl, rfl, rfl, rfl⟩
    · cases h
  | nextEvent =>
    simp only [step] at h
    split at h
    · obtain ⟨q, -, rfl⟩ := Option.map_eq_some_iff.mp h
      exact .quiet _ _ rfl ⟨rfl, rfl, rfl, rfl, rfl⟩
    · cases h
  | push b =>
    simp only [step] at h
    split at h
    · next event rest _ =>
      obtain ⟨q, -, rfl⟩ := Option.map_eq_some_iff.mp h
      exact .quiet _ _ rfl ((sameReports_setQueue s _ q).trans (sameReports_afterPush _ event rest _))
    · cases h
  | drop =>
    simp only [step] at h
    split at h
    · obtain rfl := Option.some.inj h
      exact .quiet _ _ rfl ⟨rfl, rfl, rfl, rfl, rfl⟩
    · cases h
  | pop w =>
    simp only [step] at h
    split at h
    · next hw =>
      obtain ⟨q, -, rfl⟩ := Option.map_eq_some_iff.mp h
      refine .quiet _ _ rfl ((sameReports_setQueue s w q).trans (sameReports_setWorker _ ?_ ?_))
      · rw [State.setQueue, hw]
        rfl
      · rw [State.setQueue, hw]
        rfl
    · cases h
  | popStep w b =>
    simp only [step] at h
    split at h
    · next hw =>
      obtain ⟨q, -, rfl⟩ := Option.map_eq_some_iff.mp h
      exact .quiet _ _ rfl
        ((sameReports_setQueue s w q).trans (sameReports_afterPop (s.setQueue w q) hw _))
    · cases h
  | count w =>
    simp only [step] at h
    split at h
    · next event hw =>
      obtain rfl := Option.some.inj h
      have hsame := sameReports_setWorker s (w := w) (c := .detecting event [.signature, .anomaly, .cep] [])
        (by rw [hw]; rfl) (by rw [hw]; rfl)
      exact .quiet _ _ rfl (hsame.trans ⟨rfl, rfl, rfl, rfl, rfl⟩)
    · cases h
  | detect w now =>
    simp only [step] at h
    split at h
    · next event kind kinds hw =>
      obtain rfl := Option.some.inj h
      exact .detect w now event kind kinds hw
    · cases h
  | fire w =>
    simp only [step] at h
    split at h
    · next event kinds alert alerts hw =>
      obtain rfl := Option.some.inj h
      exact .fire w event kinds alert alerts hw
    · cases h
  | store w =>
    simp only [step] at h
    split at h
    · next event kinds alert alerts hw =>
      obtain rfl := Option.some.inj h
      exact .store w event kinds alert alerts hw
    · cases h
  | done w =>
    simp only [step] at h
    split at h
    · next hw =>
      obtain rfl := Option.some.inj h
      exact .quiet _ _ rfl (sameReports_setWorker s (by rw [hw]; rfl) (by rw [hw]; rfl))
    · cases h

/-- All alerts, from the answers of the detectors to the store, have what `Q` says. -/
structure Vetted (P : δ → Prop) (Q : Alert → Prop) (s : State n δ) : Prop where
  detectors : ∀ w, P (s.detectors w)
  pending : ∀ w, ∀ a ∈ (s.worker w).pending, Q a
  recording : ∀ w, ∀ a ∈ (s.worker w).recording, Q a
  stored : ∀ a ∈ s.alerts, Q a

omit [NeZero n] in
theorem mem_storeAlert {app : AppState n} {alert a : Alert} (h : a ∈ (app.storeAlert alert).alerts) :
    a ∈ app.alerts ∨ a = alert := by
  have hm : a ∈ app.alerts ++ [alert] := by
    simp only [AppState.storeAlert] at h
    split at h
    · exact List.mem_of_mem_tail h
    · exact h
  exact (List.mem_append.mp hm).imp_right List.mem_singleton.mp

omit [NeZero n] in
theorem Vetted.report {D : Detectors δ} {P : δ → Prop} {Q : Alert → Prop} {s u : State n δ}
    {a : Action n} (h : Vetted P Q s)
    (hdetect : ∀ kind now event d, P d → P (D.detect kind now event d).1 ∧
      ∀ alert ∈ (D.detect kind now event d).2, Q alert) (hr : Report D s a u) : Vetted P Q u := by
  cases hr with
  | quiet a u ha hsame =>
    refine ⟨fun w => hsame.detectors ▸ h.detectors w, fun w => ?_, fun w => ?_, hsame.alerts ▸ h.stored⟩
    · exact (congrFun hsame.pending w).symm ▸ h.pending w
    · exact (congrFun hsame.recording w).symm ▸ h.recording w
  | detect w now event kind kinds hw =>
    obtain ⟨hp, hq⟩ := hdetect kind now event (s.detectors w) (h.detectors w)
    refine ⟨(Function.forall_update_iff s.detectors fun _ d => P d).mpr ⟨hp, fun v _ => h.detectors v⟩,
      (Function.forall_update_iff s.worker fun _ c => ∀ a ∈ c.pending, Q a).mpr
        ⟨hq, fun v _ => h.pending v⟩,
      (Function.forall_update_iff s.worker fun _ c => ∀ a ∈ c.recording, Q a).mpr
        ⟨fun _ ha => (nomatch ha), fun v _ => h.recording v⟩, h.stored⟩
  | fire w event kinds alert alerts hw =>
    have hpending := h.pending w
    rw [hw] at hpending
    obtain ⟨hfirst, hrest⟩ := List.forall_mem_cons.mp hpending
    refine ⟨h.detectors,
      (Function.forall_update_iff s.worker fun _ c => ∀ a ∈ c.pending, Q a).mpr
        ⟨hrest, fun v _ => h.pending v⟩,
      (Function.forall_update_iff s.worker fun _ c => ∀ a ∈ c.recording, Q a).mpr
        ⟨fun a ha => Option.some.inj ha ▸ hfirst, fun v _ => h.recording v⟩, h.stored⟩
  | store w event kinds alert alerts hw =>
    have hpending := h.pending w
    have hrecording := h.recording w
    rw [hw] at hpending hrecording
    refine ⟨h.detectors,
      (Function.forall_update_iff s.worker fun _ c => ∀ a ∈ c.pending, Q a).mpr
        ⟨hpending, fun v _ => h.pending v⟩,
      (Function.forall_update_iff s.worker fun _ c => ∀ a ∈ c.recording, Q a).mpr
        ⟨fun _ ha => (nomatch ha), fun v _ => h.recording v⟩, fun a ha => ?_⟩
    obtain hold | rfl := mem_storeAlert ha
    · exact h.stored a hold
    · exact hrecording a rfl

/-- What every answer of the detectors satisfies holds of the alerts in the store. -/
theorem vetted_of_reachable {D : Detectors δ} {P : δ → Prop} {Q : Alert → Prop} {s : State n δ} {k : Nat}
    (hfresh : P D.fresh) (hdetect : ∀ kind now event d, P d → P (D.detect kind now event d).1 ∧
      ∀ alert ∈ (D.detect kind now event d).2, Q alert) (hr : (pipeline n D k).Reachable s) :
    Vetted P Q s := by
  refine hr.rule (P := Vetted P Q) ?_ fun s a u _ h hs => h.report hdetect (report_of_step hs)
  exact ⟨fun _ => hfresh, fun _ a ha => by simp [pipeline, State.init, Worker.pending] at ha,
    fun _ a ha => by simp [pipeline, State.init, Worker.recording] at ha,
    fun a ha => by simp [pipeline, State.init] at ha⟩

end ThreatEngine.Pipeline
