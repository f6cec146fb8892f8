import ThreatEngine.Detection.SynFlood

/-! A window roll forgets everything but the next id: from then on the detector
answers as one made at that instant. -/
namespace ThreatEngine.Detection
open WindowedAnomalyDetector

/-- What `new` sets once and for all. -/
structure Configured {F : Type} [Float64 F] (window : Nat) (d : WindowedAnomalyDetector F) :
    Prop where
  window : d.window = window
  flood : d.synFloodThreshold = 50
  scan : d.portScanThreshold = 25.0
  depth : d.synCounts.depth = 4
  width : d.synCounts.width = 2048
  seeds : d.synCounts.seeds = (CountMinSketch.new 2048 4).seeds

/-- Detectors that differ in the next id only. -/
def SameButId {F : Type} (d d' : WindowedAnomalyDetector F) : Prop :=
  ∃ id, d' = { d with nextId := id }

section Forgetting
variable {F : Type} [Float64 F] {H : Hasher} {window now : Nat} {d d' : WindowedAnomalyDetector F}
  {event : NetworkEvent}

theorem configured_new (window now : Nat) : Configured window (.new F window now) :=
  ⟨rfl, rfl, rfl, rfl, rfl, rfl⟩

theorem Configured.restart (h : Configured window d) (now : Nat) :
    Configured window (d.restart now) :=
  ⟨h.window, h.flood, h.scan, h.depth, h.width, h.seeds⟩

theorem Configured.inspect (h : Configured window d) (event : NetworkEvent) :
    Configured window (d.inspect H event).1 := by
  rw [inspect_eq]
  cases event.isSyn with
  | true => exact ⟨h.window, h.flood, h.scan, h.depth, h.width, h.seeds⟩
  | false => exact ⟨h.window, h.flood, h.scan, h.depth, h.width, h.seeds⟩

theorem Configured.observe (h : Configured window d) (now : Nat) (event : NetworkEvent) :
    Configured window (d.observe H now event).1 := by
  unfold WindowedAnomalyDetector.observe maybeRollWindow
  split
  · exact (h.restart now).inspect event
  · exact h.inspect event

/-- A restart is as good as new. -/
theorem Configured.restart_eq (h : Configured window d) (now : Nat) :
    d.restart now = { WindowedAnomalyDetector.new F window now with nextId := d.nextId } := by
  simp only [WindowedAnomalyDetector.restart, WindowedAnomalyDetector.new, h.window, h.flood, h.scan,
    CountMinSketch.clear_eq_new h.depth h.width h.seeds]

theorem maybeRollWindow_new (window now : Nat) :
    (WindowedAnomalyDetector.new F window now).maybeRollWindow now = .new F window now := by
  unfold maybeRollWindow
  split
  · exact (configured_new window now).restart_eq now
  · rfl

theorem raiseOnce_fst (alerted : Finset UInt32) (s : UInt32) (reached : Bool)
    (alert alert' : Alert) :
    (raiseOnce alerted s reached alert).1 = (raiseOnce alerted s reached alert').1 := by
  unfold raiseOnce
  split <;> rfl

theorem map_raiseOnce {alerted : Finset UInt32} {s : UInt32} {reached : Bool} {alert alert' : Alert}
    (h : alert.body = alert'.body) : (raiseOnce alerted s reached alert).2.map Alert.body =
      (raiseOnce alerted s reached alert').2.map Alert.body := by
  unfold raiseOnce
  split
  · exact congrArg (fun a => [a]) h
  · rfl

/-- The step lemma: one event, looked at with different ids to give. -/
theorem SameButId.inspect (h : SameButId d d') (event : NetworkEvent) :
    SameButId (d.inspect H event).1 (d'.inspect H event).1 ∧
      (d.inspect H event).2.map Alert.body = (d'.inspect H event).2.map Alert.body := by
  obtain ⟨id, rfl⟩ := h
  have hflood : (flood H d event).1 = (flood H { d with nextId := id } event).1 :=
    raiseOnce_fst _ _ _ _ _
  have hscan : (scan H d event).1 = (scan H { d with nextId := id } event).1 :=
    raiseOnce_fst _ _ _ _ _
  rw [inspect_eq, inspect_eq, List.map_append, List.map_append]
  constructor
  · rw [hflood, hscan]
    exact ⟨_, rfl⟩
  · have hfloods : (flood H d event).2.map Alert.body =
        (flood H { d with nextId := id } event).2.map Alert.body :=
      map_raiseOnce rfl
    have hscans : (scan H d event).2.map Alert.body =
        (scan H { d with nextId := id } event).2.map Alert.body := by
      refine map_raiseOnce ?_
      rw [countSyn_eq, countSyn_eq]
      rfl
    rw [hfloods, hscans]

omit [Float64 F] in
theorem SameButId.maybeRollWindow (h : SameButId d d') (now : Nat) :
    SameButId (d.maybeRollWindow now) (d'.maybeRollWindow now) := by
  obtain ⟨id, rfl⟩ := h
  unfold WindowedAnomalyDetector.maybeRollWindow
  split
  · exact ⟨id, rfl⟩
  · exact ⟨id, rfl⟩

/-- After any past: an event that comes a whole window after the start is
answered, and so are all after it, as by a detector made at that instant. -/
theorem roll_forgets (F : Type) [Float64 F] (H : Hasher) (window t₀ : Nat)
    (past : List (Nat × NetworkEvent))
    {now : Nat} (hroll : ((anomalyMachine F H window t₀).after (anomalyMachine F H window t₀).init past).windowStart +
      window ≤ now) (event : NetworkEvent) (rest : List (Nat × NetworkEvent)) :
    ((anomalyMachine F H window t₀).outputs
        ((anomalyMachine F H window t₀).after (anomalyMachine F H window t₀).init past)
        ((now, event) :: rest)).map (List.map Alert.body) =
      (observed F H window now ((now, event) :: rest)).map (List.map Alert.body) := by
  have hconf : Configured window ((anomalyMachine F H window t₀).after (anomalyMachine F H window t₀).init past) :=
    Mealy.after_keeps (P := Configured window) (fun d x h => h.observe x.1 x.2) (configured_new window t₀) past
  generalize (anomalyMachine F H window t₀).after (anomalyMachine F H window t₀).init past = d at hroll hconf ⊢
  have hrolled : d.maybeRollWindow now =
      { WindowedAnomalyDetector.new F window now with nextId := d.nextId } := by
    rw [WindowedAnomalyDetector.maybeRollWindow, hconf.window, if_pos (decide_eq_true (by omega)), hconf.restart_eq]
  have hsame : SameButId (d.maybeRollWindow now) ((WindowedAnomalyDetector.new F window now).maybeRollWindow now) := by
    rw [hrolled, maybeRollWindow_new]
    exact ⟨1, rfl⟩
  have hrest := Mealy.map_outputs_eq (M := anomalyMachine F H window t₀) (N := anomalyMachine F H window now)
    (List.map Alert.body) (R := SameButId) (fun d d' x h => (h.maybeRollWindow x.1).inspect x.2)
    (hsame.inspect (H := H) event).1 rest
  rw [observed, Mealy.Machine.outputs, Mealy.Machine.outputs, List.map_cons, List.map_cons]
  exact congrArg₂ List.cons (hsame.inspect event).2 hrest

end Forgetting

/-- A flood at 0 has had its alert, is forgotten by what is observed at 1 in windows of
length 1, and the flood at 1 has its own alert. -/
theorem roll_forgets_flood :
    let M := anomalyMachine (Constant false) constantHasher 1 0
    let past := List.replicate 50 (0, synEvent 42)
    let rest := List.replicate 50 (1, synEvent 42)
    (M.after M.init past).alertedFloodThisWindow = {42} ∧
    ((M.outputs (M.after M.init past) ((1, synEvent 7) :: rest)).map (List.map Alert.body) =
      (observed (Constant false) constantHasher 1 1 ((1, synEvent 7) :: rest)).map (List.map Alert.body)) ∧
    (observed (Constant false) constantHasher 1 1 ((1, synEvent 7) :: rest)).flatten.length = 1 := by
  intro M past rest
  refine ⟨by decide +kernel, ?_, by decide +kernel⟩
  refine roll_forgets (Constant false) constantHasher 1 0 past ?_ (synEvent 7) rest
  decide +kernel

end ThreatEngine.Detection
