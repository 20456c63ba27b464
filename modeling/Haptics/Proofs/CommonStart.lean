import Haptics.Proofs.Opening

/-!
# The protocol of a common start

Several actuators start together in two phases: the group is prepared, every actuator is driven, and
the group is triggered. `Deed.CommonStart` says what a record shows if the protocol was kept: the
group was able to prepare these effects, nothing was driven before or after its time, and what was
prepared was either triggered or given up once.
-/

namespace Haptics

variable {R : Type}

namespace OpeningKind

/-- The ability to prepare actuators that start in this way. -/
def preparing : OpeningKind → GroupCapability
  | on => .prepareOn
  | perform => .preparePerform
  | compose => .prepareCompose

/-- The ability to trigger actuators that start in this way together with others. -/
def mixing : OpeningKind → GroupCapability
  | on => .mixedTriggerOn
  | perform => .mixedTriggerPerform
  | compose => .mixedTriggerCompose

end OpeningKind

/-- Whether a group can start effects together that start in some ways. -/
structure Group.Prepares (g : Group) (kinds : List OpeningKind) : Prop where
  sync : g.can .sync = true
  prepare : ∀ k ∈ kinds, g.can k.preparing = true
  mixed : ∀ k ∈ kinds, ∀ k' ∈ kinds, k' ≠ k → g.can k.mixing = true

theorem Flags.has_of_contains {s t : Flags GroupCapability} (h : s.contains t = true)
    {c : GroupCapability} (hc : t.has c = true) : s.has c = true := by
  refine List.all_eq_true.mp h c (List.mem_filter.mpr ⟨?_, hc⟩)
  cases c <;> decide

theorem requiredSync_preparing (effects : List (Effect R)) (k : OpeningKind) :
    (requiredSync effects).has k.preparing =
      (effects.filterMap OpeningKind.ofEffect?).contains k := by
  cases k <;> rfl

theorem requiredSync_mixing (effects : List (Effect R)) (k : OpeningKind) :
    (requiredSync effects).has k.mixing = ((effects.filterMap OpeningKind.ofEffect?).contains k &&
      (effects.filterMap OpeningKind.ofEffect?).any (· != k)) := by
  cases k <;> rfl

theorem Group.Prepares.of_allows {g : Group} {effects : List (Effect R)} {ids : List ActuatorId}
    (h : g.allows (requiredSync effects) ids = true) :
    2 ≤ ids.length ∧ g.Prepares (effects.filterMap OpeningKind.ofEffect?) := by
  obtain ⟨hlen, hcontains⟩ : 2 ≤ ids.length ∧ g.capabilities.contains (requiredSync effects) := by
    simpa [allows] using h
  refine ⟨hlen, Flags.has_of_contains hcontains rfl, fun k hk => ?_, fun k hk k' hk' hne => ?_⟩
  · refine Flags.has_of_contains hcontains ?_
    rw [requiredSync_preparing]
    exact List.contains_iff_mem.mpr hk
  · refine Flags.has_of_contains hcontains ?_
    rw [requiredSync_mixing, Bool.and_eq_true]
    exact ⟨List.contains_iff_mem.mpr hk, List.any_eq_true.mpr ⟨k', hk', bne_iff_ne.mpr hne⟩⟩

namespace Deed

def isPrepare : Deed R → Bool
  | prepare .. => true
  | _ => false

def isTrigger : Deed R → Bool
  | trigger _ => true
  | _ => false

def isCancelSync : Deed R → Bool
  | cancelSync _ => true
  | _ => false

/-- What the record of a start shows if the protocol was kept, for a group and the effects that it
was to start. -/
structure CommonStart (g : Group) (es : List (ActuatorId × Effect R)) (ds : List (Deed R)) :
    Prop where
  prepared_once : ds.countP isPrepare ≤ 1
  able : ∀ ids ok, .prepare ids ok ∈ ds → ids = es.map (·.1) ∧ 2 ≤ es.length ∧
    g.Prepares (es.filterMap (OpeningKind.ofEffect? ·.2))
  /-- Nothing is driven before the group is prepared. -/
  prepared_first : ∀ ids ok, .prepare ids ok ∈ ds → ∃ post, ds = .prepare ids ok :: post
  /-- Actuators are driven in the order of the effects. -/
  in_order : ((drives ds).map (·.1)).Sublist (es.map (·.1))
  /-- Nothing is driven after a drive that failed. -/
  halted : (drives ds).Pairwise fun x _ => 0 ≤ x.2
  triggered_once : ds.countP isTrigger ≤ 1
  /-- The group is triggered if it was prepared, once everything was driven and nothing failed, and
  if there is something to play. -/
  triggered_last : ∀ ok, .trigger ok ∈ ds → ∃ pre post, ds = pre ++ .trigger ok :: post ∧
    .prepare (es.map (·.1)) true ∈ pre ∧ drives post = [] ∧ (∀ x ∈ drives pre, 0 ≤ x.2) ∧
    ((∃ x ∈ drives pre, 0 < x.2) ∨ ∃ x ∈ es, 0 < x.2.expected)
  /-- What was prepared is triggered with success, or given up once. -/
  settled : .prepare (es.map (·.1)) true ∈ ds →
    .trigger true ∈ ds ∧ ds.countP isCancelSync = 0 ∨
      .trigger true ∉ ds ∧ ds.countP isCancelSync = 1

variable {g : Group} {required : Flags GroupCapability} {ids : List ActuatorId} {due : Prop}
  {prepared : Bool} {asked settled : List (Deed R)}

/-- Deeds that are no calls to the group. -/
def Aside (ds : List (Deed R)) : Prop :=
  ∀ d ∈ ds, d.isPrepare = false ∧ d.isTrigger = false ∧ d.isCancelSync = false

theorem Aside.of_actuator {ds : List (Deed R)} (h : ∀ d ∈ ds, ∃ a, d.actuator? = some a) :
    Aside ds := by
  intro d hd
  obtain ⟨a, ha⟩ := h d hd
  cases d <;> first | exact ⟨rfl, rfl, rfl⟩ | cases ha

theorem Aside.of_tells {ds : List (Deed R)} (h : ∀ d ∈ ds, ∃ t, d = .tell t) : Aside ds := by
  intro d hd
  obtain ⟨t, rfl⟩ := h d hd
  exact ⟨rfl, rfl, rfl⟩

theorem Asks.of_mem (A : Asks g required ids prepared asked) {ids' : List ActuatorId} {ok : Bool}
    (h : .prepare ids' ok ∈ asked) : ids' = ids ∧ ok = prepared ∧ asked = [.prepare ids ok] ∧
      g.allows required ids = true := by
  cases A with
  | not => cases h
  | once hallows ok =>
    cases List.mem_singleton.mp h
    exact ⟨rfl, rfl, rfl, hallows⟩

theorem Asks.mem_of_prepared (A : Asks g required ids true asked) : .prepare ids true ∈ asked := by
  cases A
  exact List.mem_singleton_self _

theorem Settles.of_mem (S : Settles due prepared settled) {ok : Bool}
    (h : .trigger ok ∈ settled) : due ∧ prepared = true ∧
      ∃ rest, settled = .trigger ok :: rest ∧ Deed.drives rest = [] := by
  cases S with
  | unprepared => cases h
  | triggered hdue =>
    cases List.mem_singleton.mp h
    exact ⟨hdue, rfl, [], rfl, rfl⟩
  | missed hdue ok' =>
    obtain rfl : ok = false := by simpa using h
    exact ⟨hdue, rfl, [.cancelSync ok'], rfl, rfl⟩
  | idle _ ok' => simp at h

theorem Asks.countP_isCancelSync (A : Asks g required ids prepared asked) :
    asked.countP isCancelSync = 0 := by
  cases A <;> rfl

/-- What was prepared is triggered with success, or given up once. -/
theorem Settles.once (S : Settles due true settled) :
    .trigger true ∈ settled ∧ settled.countP isCancelSync = 0 ∨
      .trigger true ∉ settled ∧ settled.countP isCancelSync = 1 := by
  cases S with
  | triggered => exact .inl ⟨List.mem_singleton_self _, rfl⟩
  | missed => exact .inr ⟨by simp, rfl⟩
  | idle => exact .inr ⟨by simp, rfl⟩

/-- What a record says about the group if all calls to it are in two of its parts. -/
theorem countP_of_aside {q : Deed R → Bool} {body told : List (Deed R)}
    (hbody : ∀ d ∈ body, q d = false) (htold : ∀ d ∈ told, q d = false) :
    (asked ++ body ++ settled ++ told).countP q = asked.countP q + settled.countP q := by
  have h0 : ∀ {ds : List (Deed R)}, (∀ d ∈ ds, q d = false) → ds.countP q = 0 := fun h =>
    List.countP_eq_zero.mpr fun d hd => Bool.eq_false_iff.mp (h d hd)
  simp only [List.countP_append, h0 hbody, h0 htold, Nat.add_zero]

theorem mem_of_aside {q : Deed R → Bool} {body told : List (Deed R)} {d : Deed R}
    (hbody : ∀ d ∈ body, q d = false) (htold : ∀ d ∈ told, q d = false)
    (hd : d ∈ asked ++ body ++ settled ++ told) (hq : q d = true) : d ∈ asked ∨ d ∈ settled := by
  simp only [List.mem_append] at hd
  rcases hd with ((hd | hd) | hd) | hd
  · exact .inl hd
  · rw [hbody d hd] at hq
    cases hq
  · exact .inr hd
  · rw [htold d hd] at hq
    cases hq

section
variable {body told : List (Deed R)} (hbody : Aside body) (htold : Aside told)
include hbody htold

theorem Settles.prepare_asked (S : Settles due prepared settled) {ids : List ActuatorId} {ok : Bool}
    (hd : .prepare ids ok ∈ asked ++ body ++ settled ++ told) : .prepare ids ok ∈ asked := by
  refine (mem_of_aside (fun d hd => (hbody d hd).1) (fun d hd => (htold d hd).1) hd
    rfl).resolve_right fun hd => ?_
  cases S <;> simp at hd

theorem Asks.trigger_settled (A : Asks g required ids prepared asked) {ok : Bool}
    (hd : .trigger ok ∈ asked ++ body ++ settled ++ told) : .trigger ok ∈ settled := by
  refine (mem_of_aside (fun d hd => (hbody d hd).2.1) (fun d hd => (htold d hd).2.1) hd
    rfl).resolve_left fun hd => ?_
  cases A <;> simp at hd

end

end Deed

namespace Stage.Starts

variable {s : Stage R} {es : List (ActuatorId × Effect R)} {p : Played R} {prepared : Bool}
  {asked driven undone settled told : List (Deed R)}

/-- What is done to the actuators is no call to the group. -/
theorem aside (H : s.Starts es p prepared asked driven undone settled) :
    Deed.Aside (driven ++ undone) := by
  refine .of_actuator fun d hd => ?_
  rcases List.mem_append.mp hd with hd | hd
  · obtain ⟨x, -, hx⟩ := H.own d hd
    exact ⟨_, hx⟩
  · obtain ⟨a, rfl⟩ := H.stops d hd
    exact ⟨a, rfl⟩

/-- A start keeps the protocol of a common start, whatever it tells in the end. -/
theorem commonStart (H : s.Starts es p prepared asked driven undone settled)
    (htold : ∀ d ∈ told, ∃ t, d = .tell t) :
    Deed.CommonStart s.rig.group es (asked ++ (driven ++ undone) ++ settled ++ told) := by
  have hbody := H.aside
  have haside := Deed.Aside.of_tells htold
  have hdrives : Deed.drives (asked ++ (driven ++ undone) ++ settled ++ told) =
      Deed.drives driven := by
    simp [H.asks.drives, Deed.drives_of_stops H.stops, H.settles.drives, Deed.drives_of_tells htold]
  have hasked : ∀ ids ok, .prepare ids ok ∈ asked ++ (driven ++ undone) ++ settled ++ told →
      Deed.prepare ids ok ∈ asked := fun _ _ => H.settles.prepare_asked hbody haside
  have hsettled : ∀ ok, .trigger ok ∈ asked ++ (driven ++ undone) ++ settled ++ told →
      Deed.trigger ok ∈ settled := fun _ => H.asks.trigger_settled hbody haside
  constructor
  case prepared_once =>
    rw [Deed.countP_of_aside (fun d hd => (hbody d hd).1) fun d hd => (haside d hd).1]
    cases H.asks <;> cases H.settles <;> simp [Deed.isPrepare]
  case able =>
    intro ids ok hd
    obtain ⟨rfl, -, -, hallows⟩ := H.asks.of_mem (hasked ids ok hd)
    obtain ⟨hlen, hprepares⟩ := Group.Prepares.of_allows hallows
    rw [List.filterMap_map] at hprepares
    exact ⟨rfl, by simpa using hlen, hprepares⟩
  case prepared_first =>
    intro ids ok hd
    obtain ⟨rfl, -, hall, -⟩ := H.asks.of_mem (hasked ids ok hd)
    exact ⟨driven ++ undone ++ settled ++ told, by simp [hall]⟩
  case in_order => exact hdrives ▸ H.order
  case halted => exact hdrives ▸ H.last
  case triggered_once =>
    rw [Deed.countP_of_aside (fun d hd => (hbody d hd).2.1) fun d hd => (haside d hd).2.1]
    cases H.asks <;> cases H.settles <;> simp [Deed.isTrigger, List.countP_cons]
  case triggered_last =>
    intro ok hd
    obtain ⟨hdue, rfl, rest, hrest, hnone⟩ := H.settles.of_mem (hsettled ok hd)
    obtain ⟨hall, hsome⟩ := H.started.mp hdue
    have hpre : Deed.drives (asked ++ (driven ++ undone)) = Deed.drives driven := by
      simp [H.asks.drives, Deed.drives_of_stops H.stops]
    refine ⟨asked ++ (driven ++ undone), rest ++ told, by simp [hrest],
      List.mem_append_left _ H.asks.mem_of_prepared, ?_, ?_, ?_⟩
    · rw [Deed.drives_append, hnone, Deed.drives_of_tells htold, List.append_nil]
    · exact hpre ▸ hall
    · exact hpre ▸ hsome
  case settled =>
    intro hd
    obtain ⟨-, hprep, -, -⟩ := H.asks.of_mem (hasked _ _ hd)
    rw [Deed.countP_of_aside (fun d hd => (hbody d hd).2.2) fun d hd => (haside d hd).2.2,
      H.asks.countP_isCancelSync, Nat.zero_add]
    rcases (hprep ▸ H.settles).once with ⟨h, h0⟩ | ⟨h, h1⟩
    · exact .inl ⟨List.mem_append_left _ (List.mem_append_right _ h), h0⟩
    · exact .inr ⟨fun hd => h (hsettled _ hd), h1⟩

end Stage.Starts

/-- The opening step keeps the protocol of a common start. -/
theorem Stage.start_keeps_protocol [Level R] (s : Stage R) (plan : Plan R) (v : Vibration R)
    (t : Nat) : ∃ ds, (s.play plan (.start v t)).stage.history = s.history ++ ds ∧
      Deed.CommonStart s.rig.group (s.effects v) ds := by
  obtain ⟨prepared, asked, driven, undone, settled, H⟩ := s.openAll_starts plan (s.effects v)
  obtain ⟨told, hhistory, htold⟩ := s.history_openVibration_tells plan v
  rw [H.history, List.append_assoc] at hhistory
  refine ⟨_, hhistory, ?_⟩
  rw [List.append_assoc asked]
  exact H.commonStart htold

end Haptics
