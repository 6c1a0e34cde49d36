import PlacementTree.Proofs.Overcommit.Feed
import PlacementTree.Proofs.Placement.Sound

/-!
# Adopting settings while a decision is made

A call that adopts settings takes several steps: it checks the settings and reads the ratios in force, and then it makes its writes, one
for each ratio that differs. Steps of several calls may alternate (`Adopting`), and a call that nobody disturbs adopts what adopting at
once does (`Adopting.ratios_run_alone`). Each node that scores hosts reads the ratios when its turn comes, after some number of these
steps. So what one decision is scored under is in general not one pair, and a pair that is read between two writes of one call need not
be one that anybody ever asked for (`SchedulerTree.places_between_writes`).

What does hold is that either ratio of a pair is that of the initial pair or of accepted settings (`Adopting.run_mixOf`), and that one
pair decides all if no write falls between the first and the last node that reads (`SchedulerTree.decides_under_ratios_found`). If also
the calls run one at a time and none is half-way by then, this pair is the one adopted last (`Adopting.ratios_of_idle`).
-/

namespace PlacementTree

/-- The ratios in force and the calls that adopt settings, by what each has yet to write. -/
structure Adopting where
  ratios : OvercommitRatios
  calls : List (List RatioWrite) := []

/-- A step of a call: a new one checks its settings and reads the ratios, or one of them makes its next write. -/
inductive AdoptStep where
  | load (settings : OvercommitSettings)
  | write (call : Nat)

/-- The ratios of the settings that a step accepts. -/
def AdoptStep.accepted? : AdoptStep → Option OvercommitRatios
  | .load settings => settings.ratios.toOption
  | .write _ => none

/-- The ratios of accepted settings, in order. -/
def AdoptStep.accepted (steps : List AdoptStep) : List OvercommitRatios := steps.filterMap accepted?

/-- Either ratio is that of one of some pairs, not both of the same. -/
structure OvercommitRatios.MixOf (r : OvercommitRatios) (pairs : List OvercommitRatios) : Prop where
  cpu : ∃ pair ∈ pairs, pair.cpu = r.cpu
  memory : ∃ pair ∈ pairs, pair.memory = r.memory

/-- The write is of the ratio that one of some pairs has. -/
def RatioWrite.PartOf (pairs : List OvercommitRatios) : RatioWrite → Prop
  | .cpu ratio => ∃ pair ∈ pairs, pair.cpu = ratio
  | .memory ratio => ∃ pair ∈ pairs, pair.memory = ratio

theorem OvercommitRatios.MixOf.mono {r : OvercommitRatios} {pairs pairs' : List OvercommitRatios} (h : r.MixOf pairs)
    (hsub : pairs ⊆ pairs') : r.MixOf pairs' := by
  obtain ⟨⟨a, ha, hcpu⟩, ⟨b, hb, hmemory⟩⟩ := h
  exact ⟨⟨a, hsub ha, hcpu⟩, ⟨b, hsub hb, hmemory⟩⟩

theorem RatioWrite.PartOf.mono {w : RatioWrite} {pairs pairs' : List OvercommitRatios} (h : w.PartOf pairs) (hsub : pairs ⊆ pairs') :
    w.PartOf pairs' := by
  cases w with
  | cpu | memory =>
    obtain ⟨a, ha, hratio⟩ := h
    exact ⟨a, hsub ha, hratio⟩

/-- Writing a part of pairs over a mix of them leaves one. -/
theorem OvercommitRatios.MixOf.write {r : OvercommitRatios} {pairs : List OvercommitRatios} (h : r.MixOf pairs) {w : RatioWrite}
    (hw : w.PartOf pairs) : (r.write w).MixOf pairs := by
  cases w with
  | cpu => exact ⟨hw, h.memory⟩
  | memory => exact ⟨h.cpu, hw⟩

/-- What adopts settings writes their ratios. -/
theorem OvercommitSettings.partOf_of_mem_writesFrom {settings : OvercommitSettings} {seen : OvercommitRatios} {w : RatioWrite}
    (h : w ∈ (settings.writesFrom seen).toOption.getD []) : w.PartOf settings.ratios.toOption.toList := by
  unfold writesFrom at h
  cases hratios : settings.ratios with
  | error cause =>
    rw [hratios] at h
    cases h
  | ok next =>
    simp only [hratios, Except.map, Except.toOption, Option.getD_some, List.mem_append] at h
    simp only [Except.toOption, Option.toList_some]
    rcases h with h | h
    · split at h
      · obtain rfl := List.mem_singleton.mp h
        exact ⟨next, List.mem_singleton_self _, rfl⟩
      · cases h
    · split at h
      · obtain rfl := List.mem_singleton.mp h
        exact ⟨next, List.mem_singleton_self _, rfl⟩
      · cases h

namespace Adopting

/-- Nobody adopts settings yet. -/
def start (ratios : OvercommitRatios) : Adopting := { ratios }

/-- One step. A call whose settings are refused has nothing to write. -/
def step (s : Adopting) : AdoptStep → Adopting
  | .load settings => { s with calls := s.calls ++ [(settings.writesFrom s.ratios).toOption.getD []] }
  | .write call =>
    match s.calls[call]? with
    | some (w :: writes) => { ratios := s.ratios.write w, calls := s.calls.set call writes }
    | _ => s

/-- A row of steps. -/
def run (s : Adopting) (steps : List AdoptStep) : Adopting := steps.foldl step s

/-- No call is half-way. -/
def Idle (s : Adopting) : Prop := ∀ call ∈ s.calls, call = []

/-- The steps are of calls that run one at a time: each begins when no other is half-way. -/
def OneAtATime (s : Adopting) (steps : List AdoptStep) : Prop :=
  ∀ before settings after, steps = before ++ .load settings :: after → (s.run before).Idle

theorem run_concat (s : Adopting) (steps : List AdoptStep) (e : AdoptStep) : s.run (steps ++ [e]) = (s.run steps).step e :=
  List.foldl_concat ..

/-- A call that nobody disturbs adopts its settings as adopting at once does. -/
theorem ratios_run_alone (r : OvercommitRatios) (settings : OvercommitSettings) :
    ((start r).run [.load settings, .write 0, .write 0]).ratios = ((r.adopt settings).map (·.1)).toOption.getD r := by
  have hadopt : ((r.adopt settings).map (·.1)).toOption.getD r =
      ((settings.writesFrom r).toOption.getD []).foldl OvercommitRatios.write r := by
    rw [OvercommitRatios.adopt]
    cases settings.writesFrom r <;> rfl
  have hshort := settings.length_writesFrom_le r
  have hload : (start r).step (.load settings) = { ratios := r, calls := [(settings.writesFrom r).toOption.getD []] } := rfl
  rw [hadopt, run, List.foldl_cons, hload]
  generalize (settings.writesFrom r).toOption.getD [] = writes at hshort ⊢
  match writes with
  | [] | [_] | [_, _] => rfl
  | _ :: _ :: _ :: _ =>
    simp only [List.length_cons] at hshort
    omega

/-! ## Any calls -/

/-- The ratios in force, and all that is yet to be written, are parts of some pairs. -/
structure PartsOf (s : Adopting) (pairs : List OvercommitRatios) : Prop where
  ratios : s.ratios.MixOf pairs
  writes : ∀ call ∈ s.calls, ∀ w ∈ call, w.PartOf pairs

/-- A step adds the pair that it accepts. -/
theorem PartsOf.step {s : Adopting} {pairs : List OvercommitRatios} (h : s.PartsOf pairs) (e : AdoptStep) :
    (s.step e).PartsOf (pairs ++ e.accepted?.toList) := by
  have hold : pairs ⊆ pairs ++ e.accepted?.toList := List.subset_append_left _ _
  cases e with
  | load settings =>
    refine ⟨h.ratios.mono hold, ?_⟩
    intro call hcall w hw
    rcases List.mem_append.mp hcall with hcall | hcall
    · exact (h.writes call hcall w hw).mono hold
    · obtain rfl := List.mem_singleton.mp hcall
      exact (OvercommitSettings.partOf_of_mem_writesFrom hw).mono (List.subset_append_right _ _)
  | write call =>
    rw [AdoptStep.accepted?, Option.toList_none, List.append_nil, Adopting.step]
    split
    · rename_i w writes hcall
      have hmem : w :: writes ∈ s.calls := List.mem_of_getElem? hcall
      refine ⟨h.ratios.write (h.writes _ hmem w List.mem_cons_self), ?_⟩
      intro other hother w' hw'
      rcases List.mem_or_eq_of_mem_set hother with hother | rfl
      · exact h.writes other hother w' hw'
      · exact h.writes _ hmem w' (List.mem_cons_of_mem _ hw')
    · exact h

/-- However the steps of calls alternate, either ratio is that of the initial pair or of accepted settings. -/
theorem run_mixOf (r : OvercommitRatios) (steps : List AdoptStep) :
    ((start r).run steps).ratios.MixOf (r :: AdoptStep.accepted steps) := by
  suffices h : ((start r).run steps).PartsOf (r :: AdoptStep.accepted steps) from h.ratios
  induction steps using List.reverseRecOn with
  | nil => exact ⟨⟨⟨r, List.mem_cons_self, rfl⟩, ⟨r, List.mem_cons_self, rfl⟩⟩, nofun⟩
  | append_singleton steps e ih =>
    have hpairs : r :: AdoptStep.accepted (steps ++ [e]) = (r :: AdoptStep.accepted steps) ++ e.accepted?.toList := by
      rw [AdoptStep.accepted, List.filterMap_append, List.cons_append]
      cases h : e.accepted? <;> simp [AdoptStep.accepted, h]
    rw [run_concat, hpairs]
    exact ih.step e

/-! ## Calls that run one at a time -/

/-- Of the calls at most the last one is half-way, and where it leads is `last`. -/
def LeadsTo (s : Adopting) (last : OvercommitRatios) : Prop :=
  ∃ done current, s.calls = done ++ Option.toList current ∧ (∀ call ∈ done, call = []) ∧
    (current.getD []).foldl OvercommitRatios.write s.ratios = last

/-- Without a call half-way the ratios are where it led. -/
theorem LeadsTo.eq_of_idle {s : Adopting} {last : OvercommitRatios} (h : s.LeadsTo last) (hidle : s.Idle) : s.ratios = last := by
  obtain ⟨done, current, hcalls, -, rfl⟩ := h
  cases current with
  | none => rfl
  | some call =>
    rw [Idle, hcalls] at hidle
    rw [Option.getD_some, hidle call (List.mem_append_right _ (List.mem_singleton_self _))]
    rfl

/-- A call that begins when no other is half-way leads to its settings if they are accepted. -/
theorem LeadsTo.load {s : Adopting} {last : OvercommitRatios} (h : s.LeadsTo last) (hidle : s.Idle) (settings : OvercommitSettings) :
    (s.step (.load settings)).LeadsTo (settings.ratios.toOption.getD last) := by
  refine ⟨s.calls, some _, rfl, hidle, ?_⟩
  cases hratios : settings.ratios with
  | error cause =>
    rw [OvercommitSettings.writesFrom, hratios]
    exact h.eq_of_idle hidle
  | ok next => exact OvercommitSettings.foldl_writesFrom hratios s.ratios

/-- A write of the call half-way leads where it led. -/
theorem LeadsTo.write {s : Adopting} {last : OvercommitRatios} (h : s.LeadsTo last) (call : Nat) :
    (s.step (.write call)).LeadsTo last := by
  obtain ⟨done, current, hcalls, hdone, hlast⟩ := h
  rw [Adopting.step]
  split
  · rename_i w writes hcall
    rw [hcalls] at hcall
    rcases Nat.lt_or_ge call done.length with hlt | hge
    · -- What is done has nothing to write.
      rw [List.getElem?_append_left hlt] at hcall
      cases hdone _ (List.mem_of_getElem? hcall)
    · rw [List.getElem?_append_right hge] at hcall
      cases current with
      | none => cases hcall
      | some current =>
        obtain ⟨hzero, hcurrent⟩ := List.getElem?_eq_some_iff.mp hcall
        have heq : call - done.length = 0 := by simpa using hzero
        simp only [Option.toList_some, heq, List.getElem_cons_zero] at hcurrent
        subst hcurrent
        refine ⟨done, some writes, ?_, hdone, hlast⟩
        rw [hcalls, List.set_append_right _ _ hge, heq]
        rfl
  · exact ⟨done, current, hcalls, hdone, hlast⟩

/-- Calls that run one at a time lead to the settings accepted last. -/
theorem leadsTo_run {r : OvercommitRatios} {steps : List AdoptStep} (h : (start r).OneAtATime steps) :
    ((start r).run steps).LeadsTo ((AdoptStep.accepted steps).getLastD r) := by
  induction steps using List.reverseRecOn with
  | nil => exact ⟨[], none, rfl, nofun, rfl⟩
  | append_singleton steps e ih =>
    have hbefore : (start r).OneAtATime steps := by
      rintro before settings after rfl
      exact h before settings (after ++ [e]) (by simp)
    have hlast : (AdoptStep.accepted (steps ++ [e])).getLastD r = e.accepted?.getD ((AdoptStep.accepted steps).getLastD r) := by
      rw [AdoptStep.accepted, List.filterMap_append]
      cases hnew : e.accepted? <;> simp [AdoptStep.accepted, hnew, List.getLastD_eq_getLast?]
    rw [run_concat, hlast]
    cases e with
    | load settings => exact (ih hbefore).load (h steps settings [] rfl) settings
    | write call => exact (ih hbefore).write call

/-- When calls that run one at a time are done, the ratios are those adopted last. -/
theorem ratios_of_idle {r : OvercommitRatios} {steps : List AdoptStep} (h : (start r).OneAtATime steps)
    (hidle : ((start r).run steps).Idle) : ((start r).run steps).ratios = (AdoptStep.accepted steps).getLastD r :=
  (leadsTo_run h).eq_of_idle hidle

/-- The ratios stay while nobody writes. -/
theorem ratios_run_take (s : Adopting) {steps : List AdoptStep} {first last : Nat}
    (hquiet : ∀ i call, first ≤ i → i < last → steps[i]? ≠ some (.write call)) {turn : Nat} (hfirst : first ≤ turn)
    (hlast : turn ≤ last) : (s.run (steps.take turn)).ratios = (s.run (steps.take first)).ratios := by
  induction turn, hfirst using Nat.le_induction with
  | base => rfl
  | succ turn hle ih =>
    rw [← ih (Nat.le_of_succ_le hlast), List.take_add_one]
    cases hstep : steps[turn]? with
    | none => rw [Option.toList_none, List.append_nil]
    | some e =>
      rw [Option.toList_some, run_concat]
      cases e with
      | load => rfl
      | write call => exact absurd hstep (hquiet turn call hle hlast)

end Adopting

/-! ## One decision -/

/-- The surroundings in which every node finds the same ratios. -/
def Surroundings.under (s : Surroundings) (ratios : OvercommitRatios) : Surroundings :=
  { s with fleet := fun p => { s.fleet p with ratios } }

theorem satisfiedBelow_of_no_hosts (f f' : Fleet) (children : List Child) :
    satisfiedBelow f [] children = satisfiedBelow f' [] children := rfl

/-- A scheduler that lists no hosts decides alike whatever the fleet. -/
theorem decideAtScheduler_of_no_hosts (id : String) (limits : FanoutLimits) (draw : Draw) (f f' : Fleet) (children : List Child) :
    decideAtScheduler id limits draw f [] children = decideAtScheduler id limits draw f' [] children := by
  have hlocal : decideLocally id f [] = decideLocally id f' [] := by
    funext r
    simp [decideLocally, rankSnapshots]
  funext r now
  rw [decideAtScheduler, decideAtScheduler, hlocal]

/-- What a scheduler sees of a node depends only on the draws and on the fleets found where hosts are scored. -/
theorem Node.Mirrors.child_congr {inv : Inventory} {limits : FanoutLimits} {stands : String → AgentRef → Prop} {id : String}
    {node : Node} (h : node.Mirrors inv limits stands id) {s s' : Surroundings} (hdraw : s.draw = s'.draw) {position : Position}
    (hfleet : ∀ p ref, node.ScoredAt p ref → s.fleet (position ++ p) = s'.fleet (position ++ p)) :
    node.child s position = node.child s' position := by
  induction h generalizing position with
  | @host id ref _ _ =>
    have hhere := hfleet [] ref (Node.ScoredAt.host ref)
    rw [List.append_nil] at hhere
    rw [Node.child, Node.child, hhere]
  | @ranks id entry refs _ hne _ hst =>
    have hrefs : refs ≠ [] := by
      rintro rfl
      exact hne (List.length_eq_zero_iff.mp hst.length_eq)
    obtain ⟨ref, rest, rfl⟩ := List.exists_cons_of_ne_nil hrefs
    have hhere := hfleet [] ref (Node.ScoredAt.ranked List.mem_cons_self)
    rw [List.append_nil] at hhere
    rw [Node.child, Node.child, hhere, hdraw, Node.childrenFrom, Node.childrenFrom]
  | @asks id entry nodes _ _ hlen _ ih =>
    have hbelow : Node.childrenFrom s position 0 nodes = Node.childrenFrom s' position 0 nodes := by
      apply List.ext_getElem?
      intro i
      rw [Node.getElem?_childrenFrom, Node.getElem?_childrenFrom]
      cases hnode : nodes[i]? with
      | none => rw [Option.map_none, Option.map_none]
      | some node =>
        obtain ⟨c, hc⟩ := exists_getElem?_of_length_eq hlen hnode
        rw [Option.map_some, Option.map_some, Nat.zero_add, ih i c node hc hnode]
        intro p ref hp
        rw [List.append_assoc, List.singleton_append]
        exact hfleet (i :: p) ref (Node.ScoredAt.down hnode hp)
    rw [Node.child, Node.child, hbelow, hdraw, satisfiedBelow_of_no_hosts (s.fleet position) (s'.fleet position),
      decideAtScheduler_of_no_hosts id limits (s'.draw position) (s.fleet position) (s'.fleet position)]

/-- Each node below that scores hosts reads the ratios after a number of steps of its own. -/
def Surroundings.Read (s : Surroundings) (node : Node) (adopting : Adopting) (steps : List AdoptStep) (turn : Position → Nat) : Prop :=
  ∀ p ref, node.ScoredAt p ref → (s.fleet p).ratios = (adopting.run (steps.take (turn p))).ratios

namespace SchedulerTree

variable {inv : Inventory} {c : AgentConfig} {listeners : List String} {t : SchedulerTree}

/-- Where all that is scored is under the same ratios, the decision is the one under these ratios. -/
theorem Mirrors.decideIn_under (hm : t.Mirrors inv c) {s : Surroundings} {ratios : OvercommitRatios}
    (hsame : ∀ p ref, t.root.ScoredAt p ref → (s.fleet p).ratios = ratios) (r : PlacementRequest) (now : Int) :
    t.decideIn s r now = t.decideIn (s.under ratios) r now := by
  have hfleet : ∀ p ref, t.root.ScoredAt p ref → s.fleet ([] ++ p) = (s.under ratios).fleet ([] ++ p) := by
    intro p ref hp
    rw [List.nil_append, Surroundings.under, ← hsame p ref hp]
  have hroot : t.root.child s [] = t.root.child (s.under ratios) [] :=
    hm.nodes.child_congr (show s.draw = (s.under ratios).draw from rfl) hfleet
  rw [decideIn, decideIn, hroot]

/-- While calls adopt settings in steps that may alternate in any way, all hosts that a decision scores are scored under ratios of which
either is the initial one or that of accepted settings. If no write falls between the first and the last node that reads the ratios,
the decision is the one under a single pair, whatever the request. This is the pair adopted last, or the initial one, if the calls run
one at a time and none is half-way when the first node reads. -/
theorem decides_under_ratios_found (hbuilt : ofInventory inv c listeners = .ok t) {past : List TreeEvent} {steps : List AdoptStep}
    {turn : Position → Nat} {s : Surroundings}
    (hread : s.Read t.root (Adopting.start (t.after past).fleet.ratios) steps turn) :
    let initial := (t.after past).fleet.ratios
    (∀ p ref, t.root.ScoredAt p ref → (s.fleet p).ratios.MixOf (initial :: AdoptStep.accepted steps)) ∧
      ∀ first last, (∀ p ref, t.root.ScoredAt p ref → first ≤ turn p ∧ turn p ≤ last) →
        (∀ i call, first ≤ i → i < last → steps[i]? ≠ some (.write call)) →
          ∃ ratios, (∀ r now, (t.after past).decideIn s r now = (t.after past).decideIn (s.under ratios) r now) ∧
            ((Adopting.start initial).OneAtATime (steps.take first) → ((Adopting.start initial).run (steps.take first)).Idle →
              ratios = (AdoptStep.accepted (steps.take first)).getLastD initial) := by
  intro initial
  obtain ⟨-, hm, -⟩ := built_of_ofInventory hbuilt
  refine ⟨?_, ?_⟩
  · intro p ref hp
    rw [hread p ref hp]
    apply (Adopting.run_mixOf initial _).mono
    exact List.cons_subset_cons _ (List.Sublist.subset ((List.take_sublist _ _).filterMap _))
  · intro first last hturn hquiet
    refine ⟨((Adopting.start initial).run (steps.take first)).ratios, ?_, Adopting.ratios_of_idle⟩
    apply (hm.after past).decideIn_under
    intro p ref hp
    rw [(t.keeps_after past).root] at hp
    obtain ⟨hfirst, hlast⟩ := hturn p ref hp
    rw [hread p ref hp]
    exact Adopting.ratios_run_take _ hquiet hfirst hlast

/-- A decision after a call is done is made under its settings. -/
theorem decides_under_ratios_found_afterwards :
    let inv : Inventory := { root := "r", schedulers := [⟨"r", [], ["h"]⟩], hosts := [{ id := "h", cpuCount := 4, memoryMb := 1024 }] }
    let adopted : OvercommitRatios := { cpu := 2.0, memory := 1.5 }
    let steps : List AdoptStep := [.load { cpu := 2.0, memory := 1.5 }, .write 0, .write 0]
    ∃ t, ofInventory inv {} [] = .ok t ∧
      let s := (Surroundings.steady t.fleet fun _ _ _ => []).under ((Adopting.start t.fleet.ratios).run steps).ratios
      ∀ r now, t.decideIn s r now = t.decideIn (s.under adopted) r now := by
  intro inv adopted steps
  obtain ⟨t, ht, hratios⟩ : ∃ t, ofInventory inv {} [] = .ok t ∧ t.fleet.ratios = OvercommitRatios.none := ⟨_, rfl, rfl⟩
  refine ⟨t, ht, ?_⟩
  intro s
  have hread : s.Read t.root (Adopting.start (t.after []).fleet.ratios) steps fun _ => 3 := fun _ _ _ => rfl
  obtain ⟨-, hsingle⟩ := decides_under_ratios_found ht hread
  obtain ⟨ratios, hdecides, hlast⟩ := hsingle 3 3 (fun _ _ _ => ⟨Nat.le_refl 3, Nat.le_refl 3⟩) fun i _ hge hlt => by omega
  have halone : (Adopting.start (t.after []).fleet.ratios).OneAtATime steps := by
    intro before settings after heq
    cases before with
    | nil => exact nofun
    | cons first before =>
      have hload : AdoptStep.load settings ∈ [AdoptStep.write 0, AdoptStep.write 0] :=
        List.tail_eq_of_cons_eq heq ▸ List.mem_append_right before List.mem_cons_self
      simp at hload
  have hidle : ((Adopting.start (t.after []).fleet.ratios).run steps).Idle := by
    have hcalls : ((Adopting.start OvercommitRatios.none).run steps).calls = [[]] := rfl
    rw [Adopting.Idle, show (t.after []).fleet.ratios = OvercommitRatios.none from hratios, hcalls]
    simp
  have heq : ratios = adopted := (hlast halone hidle).trans rfl
  exact heq ▸ hdecides

/-- A host with too little cpu for a request under the initial ratios, and with too little memory under those that a call adopts, is
placed while the call is half-way. -/
theorem places_between_writes :
    let entry : HostEntry := { id := "h", cpuCount := 4, memoryMb := 1024 }
    let inv : Inventory := { root := "r", schedulers := [⟨"r", [], ["h"]⟩], hosts := [entry] }
    let r := PlacementRequest.issue "w" { cpu := 6, memoryMb := 1536 } [] 0 1000
    let steps : List AdoptStep := [.load { cpu := 2.0, memory := 1.0 }, .write 0, .write 0]
    let decision := fun (t : SchedulerTree) turn =>
      let s := (Surroundings.steady t.fleet fun _ _ _ => []).under ((Adopting.start t.fleet.ratios).run (steps.take turn)).ratios
      (t.decideIn s r 0).decision
    ∃ t, ofInventory inv { agent := { memoryOvercommit := 2.0 } } [] = .ok t ∧
      decision t 0 = .unschedulable ∧ decision t 3 = .unschedulable ∧ ∃ resp, decision t 2 = .placed resp := by
  intro entry inv r steps decision
  let initial : OvercommitRatios := { cpu := 1.0, memory := 2.0 }
  let fleet : OvercommitRatios → Fleet := fun ratios =>
    { ratios, transfer := { value := 0.5 }, agents := [HostAgent.ofSnapshot entry.snapshot 4 []] }
  obtain ⟨t, ht, hdecides⟩ : ∃ t, ofInventory inv { agent := { memoryOvercommit := 2.0 } } [] = .ok t ∧ ∀ turn,
      decision t turn = decideLocally "r" (fleet ((Adopting.start initial).run (steps.take turn)).ratios) [.agent ⟨0⟩] r :=
    ⟨_, rfl, fun _ => rfl⟩
  have hbefore : ((Adopting.start initial).run (steps.take 0)).ratios = initial := rfl
  have hbetween : ((Adopting.start initial).run (steps.take 2)).ratios = { cpu := 2.0, memory := 2.0 } := by decide +kernel
  have hafter : ((Adopting.start initial).run (steps.take 3)).ratios = { cpu := 2.0, memory := 1.0 } := by decide +kernel
  obtain ⟨score, hscore⟩ : ∃ score, scoreSnapshot entry.snapshot r.demand { cpu := 2.0, memory := 2.0 } { value := 0.5 } = some score :=
    Option.isSome_iff_exists.mp (by decide +kernel)
  have hunscored : ∀ ratios, scoreSnapshot entry.snapshot r.demand ratios { value := 0.5 } = none →
      decideLocally "r" (fleet ratios) [.agent ⟨0⟩] r = .unschedulable := by
    intro ratios hnone
    apply unschedulable_of_decideLocally
    rintro score ⟨snapshot, hin, -, hscore⟩
    obtain rfl := List.mem_singleton.mp hin
    cases hnone.symm.trans hscore
  refine ⟨t, ht, ?_, ?_, ?_⟩
  · rw [hdecides, hbefore]
    exact hunscored initial (by decide +kernel)
  · rw [hdecides, hafter]
    exact hunscored _ (by decide +kernel)
  · rw [hdecides, hbetween]
    exact exists_placed_of_decideLocally ⟨entry.snapshot, List.mem_singleton_self _, rfl, hscore⟩

end SchedulerTree

end PlacementTree
