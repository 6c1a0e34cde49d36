import Mathlib.Data.List.Basic
import PlacementTree.Proofs.Overcommit.Range

/-!
# A policy in use

Whoever shares ratios shares a policy. A ratio of it is set, settings are applied to it and its pair in force is captured, in any order and
with any numbers. A write never changes a pair, it publishes another one (`OvercommitPolicy.publish`), and whoever captured a pair holds
its place among the published ones.

A call is a row of steps, and a step that fails takes back none of those before it. Applying settings makes up to two of them, so that
neither is made if the other would fail is a fact about the checks (`OvercommitPolicy.call_apply`): both values are checked before anything
is written, and a value that passed passes again. What a call does to a policy is then said once, as writes of ratios in range
(`OvercommitPolicy.exists_writes`), and with every write the ratios stay in range and the published pairs stay where they are.
-/

namespace PlacementTree

/-- A policy: the pair in force, and those published before it, the first one first. -/
structure OvercommitPolicy where
  earlier : List OvercommitRatios := []
  current : OvercommitRatios
  deriving DecidableEq

/-- A call to a policy. -/
inductive PolicyCall where
  | set (resource : Resource) (value : Float)
  | apply (settings : OvercommitSettings)
  | capture
  deriving DecidableEq

/-- What a policy answers to a call that it accepts. A captured pair goes by its place among the published ones. -/
inductive PolicyAnswer where
  | done
  | applied (changed : Bool)
  | captured (place : Nat)
  deriving DecidableEq

/-- The values that a call brings, in the order of their checks. -/
def PolicyCall.values : PolicyCall → List (Resource × Float)
  | .set resource value => [(resource, value)]
  | .apply settings => [(.cpu, settings.cpu), (.memory, settings.memory)]
  | .capture => []

/-- The first value of a call that is out of range. -/
def PolicyCall.fault? (c : PolicyCall) : Option (Resource × Float) := c.values.find? fun v => decide (OutOfRange v.2)

theorem PolicyCall.fault?_set (resource : Resource) (value : Float) :
    (set resource value).fault? = if OutOfRange value then some (resource, value) else none := by
  by_cases hvalue : OutOfRange value <;> simp [fault?, values, hvalue]

theorem PolicyCall.fault?_apply (settings : OvercommitSettings) :
    (apply settings).fault? =
      if OutOfRange settings.cpu then some (.cpu, settings.cpu)
      else if OutOfRange settings.memory then some (.memory, settings.memory) else none := by
  by_cases hcpu : OutOfRange settings.cpu
  · simp [fault?, values, hcpu]
  · by_cases hmemory : OutOfRange settings.memory <;> simp [fault?, values, hcpu, hmemory]

theorem PolicyCall.fault?_eq_none_iff {c : PolicyCall} : c.fault? = none ↔ ∀ v ∈ c.values, ¬OutOfRange v.2 := by
  simp only [fault?, List.find?_eq_none, decide_eq_true_eq]

theorem PolicyCall.outOfRange_of_fault? {c : PolicyCall} {v : Resource × Float} (h : c.fault? = some v) :
    v ∈ c.values ∧ OutOfRange v.2 := by
  have hout := List.find?_some h
  exact ⟨List.mem_of_find?_eq_some h, by simpa only [decide_eq_true_eq] using hout⟩

/-- Steps on a policy. One that fails takes back none of those before it. -/
abbrev PolicyM := ExceptT PlacementError (StateM OvercommitPolicy)

namespace OvercommitPolicy

/-- A policy with ratios in force. -/
def start (ratios : OvercommitRatios) : OvercommitPolicy := { current := ratios }

/-- All pairs that were ever in force. -/
def published (p : OvercommitPolicy) : List OvercommitRatios := p.earlier ++ [p.current]

/-- Put another pair in force. -/
def publish (p : OvercommitPolicy) (next : OvercommitRatios) : OvercommitPolicy := { earlier := p.published, current := next }

/-- The pair that was captured in a place. -/
def captured? (p : OvercommitPolicy) (place : Nat) : Option OvercommitRatios := p.published[place]?

/-- Check a value, and publish the pair in force with it in the place of one ratio. -/
def setRatio (resource : Resource) (value : Float) : PolicyM Unit := do
  let p ← get
  let next ← ExceptT.mk (pure (p.current.set resource value))
  set (p.publish next)

/-- Set one ratio to that of another pair unless it compares equal to the one seen before. Whether it was set. -/
def adoptRatio (next seen : OvercommitRatios) (resource : Resource) : PolicyM Bool := do
  if next.ratio resource != seen.ratio resource then
    setRatio resource (next.ratio resource)
    return true
  else
    return false

/-- Check settings, and set the ratios that differ from those in force before, the cpu first. Whether any did. -/
def applySettings (settings : OvercommitSettings) : PolicyM Bool := do
  let next ← ExceptT.mk (pure settings.ratios)
  let p ← get
  let cpu ← adoptRatio next p.current .cpu
  let memory ← adoptRatio next p.current .memory
  return cpu || memory

/-- The steps of a call. -/
def obey : PolicyCall → PolicyM PolicyAnswer
  | .set resource value => do
    setRatio resource value
    return .done
  | .apply settings => return .applied (← applySettings settings)
  | .capture => return .captured (← get).earlier.length

/-- The answer to a call, and the policy after it. -/
def call (p : OvercommitPolicy) (c : PolicyCall) : Except PlacementError PolicyAnswer × OvercommitPolicy := (obey c).run p

/-- The policy after a row of calls. -/
def run (p : OvercommitPolicy) (calls : List PolicyCall) : OvercommitPolicy := calls.foldl (fun p c => (p.call c).2) p

variable (p : OvercommitPolicy)

/-- Publish what a write makes of the pair in force. -/
def write (w : RatioWrite) : OvercommitPolicy := p.publish (p.current.write w)

/-! ## What a call does -/

section Steps

variable {α β : Type} {q : OvercommitPolicy}

theorem run_bind_of_ok {x : PolicyM α} {a : α} (h : x.run p = (.ok a, q)) (f : α → PolicyM β) : (x >>= f).run p = (f a).run q := by
  rw [ExceptT.run_bind]
  simp only [bind, StateT.bind]
  rw [h]

theorem run_bind_of_error {x : PolicyM α} {cause : PlacementError} (h : x.run p = (.error cause, q)) (f : α → PolicyM β) :
    (x >>= f).run p = (.error cause, q) := by
  rw [ExceptT.run_bind]
  simp only [bind, StateT.bind]
  rw [h]
  rfl

end Steps

theorem setRatio_run (resource : Resource) (value : Float) :
    (setRatio resource value).run p =
      if OutOfRange value then (.error (.invalidConfig (.overcommit resource value)), p)
      else (.ok (), p.write (.of resource value)) := by
  have hget : (get : PolicyM OvercommitPolicy).run p = (.ok p, p) := rfl
  rw [setRatio, run_bind_of_ok p hget, OvercommitRatios.set_eq]
  by_cases hvalue : OutOfRange value
  · rw [if_pos hvalue, if_pos hvalue]
    rfl
  · rw [if_neg hvalue, if_neg hvalue]
    rfl

/-- Adopting a ratio in range does not fail. -/
theorem adoptRatio_run {next : OvercommitRatios} (hnext : next.InRange) (seen : OvercommitRatios) (resource : Resource) :
    (adoptRatio next seen resource).run p =
      (.ok (!(next.writeUnlessEqual seen resource).isEmpty), (next.writeUnlessEqual seen resource).foldl write p) := by
  have hset : (setRatio resource (next.ratio resource)).run p = (.ok (), p.write (.of resource (next.ratio resource))) := by
    rw [setRatio_run, if_neg (hnext resource)]
  rw [adoptRatio, OvercommitRatios.writeUnlessEqual]
  cases next.ratio resource != seen.ratio resource with
  | true => exact run_bind_of_ok p hset _
  | false => rfl

/-- Once settings are accepted, no write of theirs fails. -/
theorem applySettings_run_of_accepted {settings : OvercommitSettings} {next : OvercommitRatios} (h : settings.ratios = .ok next) :
    (applySettings settings).run p =
      (.ok (!(next.writesFrom p.current).isEmpty), (next.writesFrom p.current).foldl write p) := by
  have hrange : next.InRange := (OvercommitSettings.ratios_eq_ok_iff_inRange.mp h).2
  have hcheck : (ExceptT.mk (pure settings.ratios) : PolicyM OvercommitRatios).run p = (.ok next, p) := by
    rw [h]
    rfl
  have hget : (get : PolicyM OvercommitPolicy).run p = (.ok p, p) := rfl
  have hempty (writes more : List RatioWrite) : (!(writes ++ more).isEmpty) = (!writes.isEmpty || !more.isEmpty) := by
    cases writes <;> rfl
  -- Each write checks its value again and publishes a pair of its own, so the second one starts from what the first one left.
  rw [applySettings, run_bind_of_ok p hcheck, run_bind_of_ok p hget, run_bind_of_ok p (adoptRatio_run p hrange p.current .cpu),
    run_bind_of_ok _ (adoptRatio_run _ hrange p.current .memory), OvercommitRatios.writesFrom, List.foldl_append, hempty]
  rfl

/-- A ratio is set, or refused with nothing done. -/
theorem call_set (resource : Resource) (value : Float) :
    p.call (.set resource value) =
      if OutOfRange value then (.error (.invalidConfig (.overcommit resource value)), p)
      else (.ok .done, p.write (.of resource value)) := by
  have hrun := setRatio_run p resource value
  rw [call, obey]
  by_cases hvalue : OutOfRange value
  · rw [if_pos hvalue] at hrun ⊢
    exact run_bind_of_error p hrun _
  · rw [if_neg hvalue] at hrun ⊢
    exact run_bind_of_ok p hrun _

/-- Settings are applied as they are adopted at once, or refused with nothing done. -/
theorem call_apply (settings : OvercommitSettings) :
    p.call (.apply settings) =
      match settings.ratios with
      | .error cause => (.error cause, p)
      | .ok next => (.ok (.applied (!(next.writesFrom p.current).isEmpty)), (next.writesFrom p.current).foldl write p) := by
  rw [call, obey]
  cases h : settings.ratios with
  | error cause =>
    have hrun : (applySettings settings).run p = (.error cause, p) := by
      rw [applySettings, h]
      rfl
    exact run_bind_of_error p hrun _
  | ok next => exact run_bind_of_ok p (applySettings_run_of_accepted p h) _

theorem call_capture : p.call .capture = (.ok (.captured p.earlier.length), p) := rfl

/-- A call that brings a value out of range is refused for the first one, with nothing done. -/
theorem call_of_fault {c : PolicyCall} {resource : Resource} {value : Float} (h : c.fault? = some (resource, value)) :
    p.call c = (.error (.invalidConfig (.overcommit resource value)), p) := by
  cases c with
  | set resource' value' =>
    rw [PolicyCall.fault?_set] at h
    rw [call_set]
    by_cases hvalue : OutOfRange value'
    · rw [if_pos hvalue] at h ⊢
      cases h
      rfl
    · rw [if_neg hvalue] at h
      cases h
  | apply settings =>
    rw [PolicyCall.fault?_apply] at h
    rw [call_apply, OvercommitSettings.ratios_eq]
    by_cases hcpu : OutOfRange settings.cpu
    · rw [if_pos hcpu] at h ⊢
      cases h
      rfl
    · rw [if_neg hcpu] at h ⊢
      by_cases hmemory : OutOfRange settings.memory
      · rw [if_pos hmemory] at h ⊢
        cases h
        rfl
      · rw [if_neg hmemory] at h
        cases h
  | capture => cases h

/-- Any other is accepted. -/
theorem call_of_no_fault {c : PolicyCall} (h : c.fault? = none) : ∃ answer, (p.call c).1 = .ok answer := by
  rw [PolicyCall.fault?_eq_none_iff] at h
  cases c with
  | set resource value =>
    rw [call_set, if_neg (h (resource, value) List.mem_cons_self)]
    exact ⟨_, rfl⟩
  | apply settings =>
    have hcpu : ¬OutOfRange settings.cpu := h (.cpu, settings.cpu) List.mem_cons_self
    have hmemory : ¬OutOfRange settings.memory := h (.memory, settings.memory) (List.mem_cons_of_mem _ List.mem_cons_self)
    rw [call_apply, OvercommitSettings.ratios_eq, if_neg hcpu, if_neg hmemory]
    exact ⟨_, rfl⟩
  | capture => exact ⟨_, rfl⟩

/-- A call is refused exactly if it brings a value out of range. -/
theorem exists_call_eq_error_iff {c : PolicyCall} : (∃ cause, (p.call c).1 = .error cause) ↔ ∃ v ∈ c.values, OutOfRange v.2 := by
  cases h : c.fault? with
  | none =>
    obtain ⟨answer, hanswer⟩ := p.call_of_no_fault h
    rw [hanswer]
    exact ⟨nofun, fun ⟨v, hv, hout⟩ => absurd hout (PolicyCall.fault?_eq_none_iff.mp h v hv)⟩
  | some v =>
    rw [p.call_of_fault h]
    exact ⟨fun _ => ⟨v, PolicyCall.outOfRange_of_fault? h⟩, fun _ => ⟨_, rfl⟩⟩

/-- A refused call has done nothing, and says the first value out of range. -/
theorem call_eq_of_error {c : PolicyCall} {cause : PlacementError} (h : (p.call c).1 = .error cause) :
    (p.call c).2 = p ∧ ∃ resource value, c.fault? = some (resource, value) ∧ cause = .invalidConfig (.overcommit resource value) := by
  cases hfault : c.fault? with
  | none =>
    obtain ⟨answer, hanswer⟩ := p.call_of_no_fault hfault
    rw [hanswer] at h
    cases h
  | some v =>
    rw [p.call_of_fault hfault] at h ⊢
    obtain rfl := Except.error.inj h
    exact ⟨rfl, v.1, v.2, rfl, rfl⟩

/-- An accepted call makes writes of ratios in range, if it does anything. -/
theorem exists_writes (c : PolicyCall) :
    ∃ writes : List RatioWrite, (p.call c).2 = writes.foldl write p ∧ ∀ w ∈ writes, ¬OutOfRange w.value := by
  cases c with
  | set resource value =>
    rw [call_set]
    by_cases hvalue : OutOfRange value
    · exact ⟨[], by rw [if_pos hvalue]; rfl, nofun⟩
    · refine ⟨[.of resource value], by rw [if_neg hvalue]; rfl, ?_⟩
      simpa using hvalue
  | apply settings =>
    rw [call_apply]
    cases h : settings.ratios with
    | error cause => exact ⟨[], rfl, nofun⟩
    | ok next => exact ⟨next.writesFrom p.current, rfl, (OvercommitSettings.ratios_eq_ok_iff_inRange.mp h).2.of_mem_writesFrom p.current⟩
  | capture => exact ⟨[], rfl, nofun⟩

/-! ## What a run keeps -/

section Keeps

variable {p} {motive : OvercommitPolicy → Prop}
  (hwrite : ∀ {q : OvercommitPolicy} {w : RatioWrite}, ¬OutOfRange w.value → motive q → motive (q.write w))

include hwrite

/-- What every write of a ratio in range keeps, a call keeps, -/
theorem call_induction (h : motive p) (c : PolicyCall) : motive (p.call c).2 := by
  obtain ⟨writes, hcall, hwrites⟩ := p.exists_writes c
  rw [hcall]
  clear hcall
  induction writes generalizing p with
  | nil => exact h
  | cons w writes ih =>
    have hnext : motive (p.write w) := hwrite (hwrites w List.mem_cons_self) h
    exact ih hnext fun w' hw' => hwrites w' (List.mem_cons_of_mem _ hw')

/-- and so does a run. -/
theorem run_induction (h : motive p) (calls : List PolicyCall) : motive (p.run calls) := by
  induction calls generalizing p with
  | nil => exact h
  | cons c calls ih => exact ih (call_induction hwrite h c)

end Keeps

theorem published_write (w : RatioWrite) : (p.write w).published = p.published ++ [p.current.write w] := rfl

/-- Only ratios in range were ever in force. -/
def InRange : Prop := ∀ r ∈ p.published, r.InRange

section InRange

variable {p}

/-- It is so in the beginning. -/
theorem InRange.start {r : OvercommitRatios} (h : r.InRange) : (start r).InRange := by
  intro r' hr'
  rw [List.mem_singleton.mp hr']
  exact h

theorem InRange.current (h : p.InRange) : p.current.InRange := h _ (List.mem_append_right _ (List.mem_singleton_self _))

/-- A write of a ratio in range keeps it so, -/
theorem InRange.write (h : p.InRange) {w : RatioWrite} (hw : ¬OutOfRange w.value) : (p.write w).InRange := by
  intro r hr
  rw [published_write] at hr
  rcases List.mem_append.mp hr with hr | hr
  · exact h r hr
  · rw [List.mem_singleton.mp hr]
    exact h.current.write hw

/-- and so do calls. -/
theorem InRange.call (h : p.InRange) (c : PolicyCall) : (p.call c).2.InRange := call_induction (fun hw hq => hq.write hw) h c

theorem InRange.run (h : p.InRange) (calls : List PolicyCall) : (p.run calls).InRange := run_induction (fun hw hq => hq.write hw) h calls

end InRange

/-- Calls leave the published pairs where they are. -/
theorem published_prefix_run (calls : List PolicyCall) : p.published <+: (p.run calls).published := by
  refine run_induction (motive := fun q => p.published <+: q.published) ?_ (List.prefix_refl _) calls
  intro q w _ hq
  rw [published_write]
  exact hq.trans (List.prefix_append _ _)

/-- A captured pair is there after any calls. -/
theorem captured?_run_of_capture (calls : List PolicyCall) : (p.run calls).captured? p.earlier.length = some p.current := by
  have hnow : p.published[p.earlier.length]? = some p.current := List.getElem?_concat_length
  obtain ⟨more, hmore⟩ := p.published_prefix_run calls
  rw [captured?, ← hmore, List.getElem?_append_left (List.getElem?_eq_some_iff.mp hnow).1, hnow]

/-! ## What an accepted call leaves -/

theorem current_foldl_write (writes : List RatioWrite) :
    (writes.foldl write p).current = writes.foldl OvercommitRatios.write p.current := by
  induction writes generalizing p with
  | nil => rfl
  | cons w writes ih => exact ih (p.write w)

/-- Applying settings step by step is adopting them at once. -/
theorem call_apply_eq_adopt (settings : OvercommitSettings) :
    ((p.call (.apply settings)).1, (p.call (.apply settings)).2.current) =
      match p.current.adopt settings with
      | .error cause => (.error cause, p.current)
      | .ok (next, changed) => (.ok (.applied changed), next) := by
  rw [call_apply, OvercommitRatios.adopt, OvercommitSettings.writesFrom_eq_map]
  cases settings.ratios with
  | error cause => rfl
  | ok next => exact congrArg _ (p.current_foldl_write _)

/-- A ratio that is set changes alone. -/
theorem ratio_call_set {resource : Resource} {value : Float} (h : ¬OutOfRange value) :
    (p.call (.set resource value)).2.current.ratio resource = value ∧
      ∀ other ≠ resource, (p.call (.set resource value)).2.current.ratio other = p.current.ratio other := by
  rw [call_set, if_neg h]
  exact ⟨p.current.ratio_write_self resource value, fun other hother => p.current.ratio_write_of_ne hother value⟩

/-- Accepted settings are in force once they are applied, and something was written exactly if they were not before. -/
theorem call_apply_of_accepted {settings : OvercommitSettings} {answer : PolicyAnswer}
    (h : (p.call (.apply settings)).1 = .ok answer) :
    (p.call (.apply settings)).2.current = settings.asRatios ∧ answer = .applied (decide (p.current ≠ settings.asRatios)) := by
  rw [call_apply] at h ⊢
  cases hratios : settings.ratios with
  | error cause =>
    rw [hratios] at h
    cases h
  | ok next =>
    obtain ⟨rfl, hrange⟩ := OvercommitSettings.ratios_eq_ok_iff_inRange.mp hratios
    rw [hratios] at h
    obtain rfl := Except.ok.inj h
    refine ⟨(p.current_foldl_write _).trans (hrange.foldl_writesFrom p.current), congrArg PolicyAnswer.applied ?_⟩
    -- Comparing decides what is written, and on ratios in range it tells the same pairs apart as equality does.
    rw [Bool.eq_iff_iff, decide_eq_true_eq, Bool.not_eq_true', List.isEmpty_eq_false_iff, ne_eq, hrange.writesFrom_eq_nil_iff]

/-- Settings in force are applied with nothing done. -/
theorem call_apply_of_current {settings : OvercommitSettings} (h : p.current = settings.asRatios) (hrange : p.current.InRange) :
    p.call (.apply settings) = (.ok (.applied false), p) := by
  have hnothing : p.current.writesFrom p.current = [] := hrange.writesFrom_eq_nil_iff.mpr rfl
  rw [call_apply, OvercommitSettings.ratios_eq_ok_iff_inRange.mpr ⟨h, hrange⟩]
  simp only [hnothing]
  rfl

/-- Whatever was called before on a policy made with accepted ratios, all pairs that were ever in force are in range. A call is refused
exactly if one of its values is out of range; it then says the first one and has done nothing. A ratio that is set changes alone. Settings
that are applied are in force as they are, something was changed exactly if they were not before, and applying them again does nothing.
A captured pair is the same after any more calls, and so is what a capacity counts for by it. -/
theorem calls_all_or_nothing {cpu memory : Float} {initial : OvercommitRatios} (hmake : OvercommitRatios.make cpu memory = .ok initial)
    (before : List PolicyCall) :
    let p := (start initial).run before
    (∀ r ∈ p.published, ∀ resource, (r.ratio resource).isFinite = true ∧ 1.0 ≤ r.ratio resource) ∧
      (∀ c : PolicyCall, (∃ cause, (p.call c).1 = .error cause) ↔ ∃ v ∈ c.values, v.2.isFinite = false ∨ v.2 < 1.0) ∧
      (∀ (c : PolicyCall) (cause : PlacementError), (p.call c).1 = .error cause →
        (p.call c).2 = p ∧ ∃ resource value, c.fault? = some (resource, value) ∧ cause = .invalidConfig (.overcommit resource value)) ∧
      (∀ (resource : Resource) (value : Float) (answer : PolicyAnswer), (p.call (.set resource value)).1 = .ok answer →
        (p.call (.set resource value)).2.current.ratio resource = value ∧
          ∀ other ≠ resource, (p.call (.set resource value)).2.current.ratio other = p.current.ratio other) ∧
      (∀ (settings : OvercommitSettings) (answer : PolicyAnswer), (p.call (.apply settings)).1 = .ok answer →
        let q := (p.call (.apply settings)).2
        q.current = settings.asRatios ∧ answer = .applied (decide (p.current ≠ settings.asRatios)) ∧
          q.call (.apply settings) = (.ok (.applied false), q)) ∧
      ∃ place, p.call .capture = (.ok (.captured place), p) ∧ ∀ later : List PolicyCall,
        (p.run later).captured? place = some p.current ∧ ∀ (resource : Resource) (raw : Float),
          ((p.run later).captured? place).map (fun captured => captured.effectiveCapacity resource raw) =
            some (p.current.effectiveCapacity resource raw) := by
  intro p
  have hsettings : OvercommitSettings.ratios { cpu, memory } = .ok initial := hmake
  have hinitial : initial.InRange := (OvercommitSettings.ratios_eq_ok_iff_inRange.mp hsettings).2
  have hrange : p.InRange := (InRange.start hinitial).run before
  refine ⟨fun r hr resource => ?_, fun c => p.exists_call_eq_error_iff, fun c cause h => p.call_eq_of_error h, ?_, ?_,
    p.earlier.length, p.call_capture, fun later => ?_⟩
  · exact not_not.mp (mt outOfRange_iff.mpr (hrange r hr resource))
  · intro resource value answer h
    refine p.ratio_call_set fun hout => ?_
    rw [call_set, if_pos hout] at h
    cases h
  · intro settings answer h q
    obtain ⟨hcurrent, hanswer⟩ := p.call_apply_of_accepted h
    exact ⟨hcurrent, hanswer, q.call_apply_of_current hcurrent (hrange.call _).current⟩
  · rw [p.captured?_run_of_capture later]
    exact ⟨rfl, fun resource raw => rfl⟩

/-- Settings of which only the memory is out of range change neither ratio, after other calls were refused and one was not. -/
theorem calls_all_or_nothing_half_refused :
    let before : List PolicyCall :=
      [.set .cpu .nan, .set .memory 4.0, .apply { cpu := 0.5, memory := 3.0 }, .capture, .set .memory (Float.ofBits 0x7ff0000000000000)]
    let p := (start { cpu := 2.0, memory := 1.5 }).run before
    OvercommitRatios.make 2.0 1.5 = .ok { cpu := 2.0, memory := 1.5 } ∧
      (∃ cause, (p.call (.apply { cpu := 3.0, memory := 0.5 })).1 = .error cause) ∧
      (p.call (.apply { cpu := 3.0, memory := 0.5 })).2.current = { cpu := 2.0, memory := 4.0 } := by
  intro before p
  have hmake : OvercommitRatios.make 2.0 1.5 = .ok { cpu := 2.0, memory := 1.5 } := rfl
  obtain ⟨-, hrefused, hkept, -⟩ := calls_all_or_nothing hmake before
  obtain ⟨cause, hcause⟩ : ∃ cause, (p.call (.apply { cpu := 3.0, memory := 0.5 })).1 = .error cause :=
    (hrefused _).mpr ⟨(.memory, 0.5), List.mem_cons_of_mem _ List.mem_cons_self, Or.inr (by decide)⟩
  have hcurrent : p.current = { cpu := 2.0, memory := 4.0 } := by decide
  refine ⟨hmake, ⟨cause, hcause⟩, ?_⟩
  rw [(hkept _ cause hcause).1]
  exact hcurrent

end OvercommitPolicy

end PlacementTree
