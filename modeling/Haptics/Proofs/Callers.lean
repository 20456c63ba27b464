import Haptics.Proofs.Intake
import Mathlib.Data.List.Nodup
import Mathlib.Data.List.Perm.Basic

/-!
# Calls that overlap

A call to the service takes a number, submits its vibration and then takes over: it becomes the
current one and cancels the one before it. Each of the three is one action, and the actions of
several calls may come in any order. The order of the take-overs decides which vibration stays, and
it need not be the order in which the vibrations were submitted (`Callers.after_calls`).
-/

namespace Haptics

variable {R : Type}

/-- A service, and the calls to it that have not returned. -/
structure Callers (R : Type) where
  service : Service R
  /-- The calls that have a number and have not submitted their vibration. -/
  numbered : List (Nat × Caller × Vibration R) := []
  /-- The vibrations that were submitted by calls that have not taken over. -/
  submitted : List Nat := []
  /-- The vibrations that took over, in order. -/
  tookOver : List Nat := []
  /-- The vibrations that were sent a graceful cancel by one that took over. -/
  cancelled : List Nat := []

/-- Something that is not part of a call. -/
def Incident.Aside (i : Incident R) : Prop :=
  match i with
  | .request .. => False
  | _ => True

namespace Callers

/-- An action of a call, or something that is not part of one. -/
inductive Act (R : Type)
  /-- A call whose vibration can be played takes a number. -/
  | number (caller : Caller) (v : Vibration R)
  | submit (id : Nat)
  | takeOver (id : Nat)
  | aside (i : Incident R) (h : i.Aside)

/-- The call that has a number. -/
def call? (c : Callers R) (id : Nat) : Option (Nat × Caller × Vibration R) :=
  c.numbered.find? (·.1 == id)

variable [PerceptualLevel R]

def act (c : Callers R) : Act R → Callers R
  | .number caller v =>
    let (id, service) := c.service.allocate
    { c with service, numbered := c.numbered ++ [(id, caller, v)] }
  | .submit id =>
    match c.call? id with
    | none => c
    | some (_, caller, v) =>
      let c := { c with numbered := c.numbered.filter (·.1 != id) }
      match c.service.submit id caller v with
      | .error _ => c
      | .ok service => { c with service, submitted := c.submitted ++ [id] }
  | .takeOver id =>
    if id ∈ c.submitted then { c with
      service := c.service.supersede id
      submitted := c.submitted.erase id
      tookOver := c.tookOver ++ [id]
      cancelled := c.cancelled ++ c.service.superseded?.toList }
    else c
  | .aside i _ => { c with service := c.service.incident i }

section
variable {c : Callers R} {id k : Nat} {caller : Caller} {v : Vibration R}

theorem act_submit_stopped {e : RequestError} (call : c.call? id = some (k, caller, v))
    (stopped : c.service.submit id caller v = .error e) :
    c.act (.submit id) = { c with numbered := c.numbered.filter (·.1 != id) } := by
  unfold act
  dsimp only
  rw [call]
  dsimp only
  rw [stopped]

theorem act_submit {service : Service R} (call : c.call? id = some (k, caller, v))
    (accepted : c.service.submit id caller v = .ok service) : c.act (.submit id) = { c with
      service
      numbered := c.numbered.filter (·.1 != id)
      submitted := c.submitted ++ [id] } := by
  unfold act
  dsimp only
  rw [call]
  dsimp only
  rw [accepted]

theorem act_takeOver_of_mem (h : id ∈ c.submitted) : c.act (.takeOver id) = { c with
    service := c.service.supersede id
    submitted := c.submitted.erase id
    tookOver := c.tookOver ++ [id]
    cancelled := c.cancelled ++ c.service.superseded?.toList } := if_pos h

theorem act_takeOver_of_not_mem (h : id ∉ c.submitted) : c.act (.takeOver id) = c := if_neg h

end

def after (c : Callers R) (as : List (Act R)) : Callers R := as.foldl act c

@[simp] theorem after_nil (c : Callers R) : c.after [] = c := rfl

theorem after_cons (c : Callers R) (a : Act R) (as : List (Act R)) :
    c.after (a :: as) = (c.act a).after as := rfl

@[simp] theorem after_concat (c : Callers R) (as : List (Act R)) (a : Act R) :
    c.after (as ++ [a]) = (c.after as).act a := by
  simp [after]

end Callers

/-! ## What goes on meanwhile -/

namespace Service

variable [PerceptualLevel R] {s : Service R} {id : Nat}

omit [PerceptualLevel R] in
theorem status?_worked [Level R] {s' : Service R} (hw : s.Worked s')
    (h : (s.status? id).isSome) : (s'.status? id).isSome := by
  cases hw with
  | ended =>
    unfold status?
    rw [Table.find?_insert]
    split
    · rfl
    · exact h
  | _ => exact h

/-- What is not part of a call accepts nothing, replaces nothing and brings no vibration back. -/
theorem incident_aside (s : Service R) {i : Incident R} (h : i.Aside) :
    (s.incident i).accepted = s.accepted ∧ (s.incident i).current = s.current ∧
      (s.incident i).nextId = s.nextId ∧
      ∀ id, (s.status? id).isSome → ((s.incident i).status? id).isSome := by
  cases i with
  | request => exact h.elim
  | work =>
    unfold incident
    cases hstep : s.step? with
    | none => exact ⟨rfl, rfl, rfl, fun _ h => h⟩
    | some s' =>
      have hw := step_worked hstep
      have hsame : s'.accepted = s.accepted ∧ s'.current = s.current ∧ s'.nextId = s.nextId := by
        cases hw <;> exact ⟨rfl, rfl, rfl⟩
      exact ⟨hsame.1, hsame.2.1, hsame.2.2, fun _ h => status?_worked hw h⟩
  | _ => exact ⟨rfl, rfl, rfl, fun _ h => h⟩

omit [PerceptualLevel R] in
theorem status?_supersede (s : Service R) (id i : Nat) :
    (s.supersede id).status? i = s.status? i := by
  obtain ⟨-, h⟩ | ⟨previous, -, h⟩ := s.supersede_cases id <;> rw [h] <;> rfl

omit [PerceptualLevel R] in
/-- The vibrations that lie before the worker when one takes over. A graceful cancel goes to the one
before it, unless that is known to have ended. -/
theorem jobs_takeOver (s : Service R) (id : Nat) : (s.supersede id).jobs =
    s.jobs.map fun p => match s.superseded? with
      | some previous => p.sendTo previous .graceful
      | none => p := by
  obtain ⟨hnone, h⟩ | ⟨previous, hsome, h⟩ := s.supersede_cases id
  · rw [h, hnone, List.map_id']
    rfl
  · rw [h, hsome]
    exact s.jobs_cancel previous .graceful

end Service

namespace Callers

/-- The books of a service with calls that overlap. -/
structure Kept (c : Callers R) : Prop where
  /-- Every vibration that was accepted took over or is about to. -/
  order : (c.tookOver ++ c.submitted).Perm c.service.accepted
  distinct : (c.numbered.map (·.1)).Nodup ∧ c.service.accepted.Nodup
  apart : ∀ x ∈ c.numbered, x.1 ∉ c.service.accepted
  below : (∀ x ∈ c.numbered, x.1 < c.service.nextId) ∧
    ∀ id ∈ c.service.accepted, id < c.service.nextId
  current : c.service.current = c.tookOver.getLast?
  replaced : ∀ id ∈ c.tookOver, c.service.current ≠ some id →
    (c.service.status? id).isSome ∨ id ∈ c.cancelled
  spared : ∀ id ∈ c.cancelled, id ∈ c.tookOver ∧ c.service.current ≠ some id

/-- A service before the first call. -/
def fresh (rig : Rig R) (scaling : Scaling R) : Callers R := { service := .opened rig scaling }

theorem kept_fresh (rig : Rig R) (scaling : Scaling R) : (fresh rig scaling).Kept where
  order := .rfl
  distinct := ⟨.nil, .nil⟩
  apart _ h := (List.not_mem_nil h).elim
  below := ⟨fun _ h => (List.not_mem_nil h).elim, fun _ h => (List.not_mem_nil h).elim⟩
  current := rfl
  replaced _ h := (List.not_mem_nil h).elim
  spared _ h := (List.not_mem_nil h).elim

namespace Kept

variable {c : Callers R} {id : Nat}

/-- A call takes the next number. -/
theorem numbered (K : c.Kept) (caller : Caller) (v : Vibration R) : Kept { c with
    service := { c.service with nextId := c.service.nextId + 1 }
    numbered := c.numbered ++ [(c.service.nextId, caller, v)] } where
  order := K.order
  distinct := by
    refine ⟨?_, K.distinct.2⟩
    rw [List.map_append, List.map_singleton, ← List.concat_eq_append, List.nodup_concat]
    refine ⟨fun h => ?_, K.distinct.1⟩
    obtain ⟨x, hx, heq⟩ := List.mem_map.mp h
    exact Nat.ne_of_lt (K.below.1 x hx) heq
  apart x hx := by
    rcases List.mem_append.mp hx with hx | hx
    · exact K.apart x hx
    · cases List.mem_singleton.mp hx
      exact fun h => Nat.lt_irrefl _ (K.below.2 _ h)
  below := by
    refine ⟨fun x hx => ?_, fun id h => Nat.lt_succ_of_lt (K.below.2 id h)⟩
    rcases List.mem_append.mp hx with hx | hx
    · exact Nat.lt_succ_of_lt (K.below.1 x hx)
    · cases List.mem_singleton.mp hx
      exact Nat.lt_succ_self _
  current := K.current
  replaced := K.replaced
  spared := K.spared

/-- A call gives up its number. -/
theorem refused (K : c.Kept) (id : Nat) :
    Kept { c with numbered := c.numbered.filter (·.1 != id) } where
  order := K.order
  distinct := ⟨K.distinct.1.sublist (List.filter_sublist.map _), K.distinct.2⟩
  apart x hx := K.apart x (List.mem_filter.mp hx).1
  below := ⟨fun x hx => K.below.1 x (List.mem_filter.mp hx).1, K.below.2⟩
  current := K.current
  replaced := K.replaced
  spared := K.spared

/-- A call submits its vibration. -/
theorem submitted (K : c.Kept) {x : Nat × Caller × Vibration R} (hx : x ∈ c.numbered)
    (waiting : List (Performance R)) : Kept { c with
      service := { c.service with waiting, accepted := c.service.accepted ++ [x.1] }
      numbered := c.numbered.filter (·.1 != x.1)
      submitted := c.submitted ++ [x.1] } where
  order := by
    rw [← List.append_assoc]
    exact K.order.append_right _
  distinct := by
    refine ⟨(K.refused x.1).distinct.1, ?_⟩
    rw [← List.concat_eq_append, List.nodup_concat]
    exact ⟨K.apart x hx, K.distinct.2⟩
  apart y hy h := by
    obtain ⟨hy, hne⟩ := List.mem_filter.mp hy
    rcases List.mem_append.mp h with h | h
    · exact K.apart y hy h
    · exact absurd (List.mem_singleton.mp h) (by simpa using hne)
  below := by
    refine ⟨(K.refused x.1).below.1, fun id h => ?_⟩
    rcases List.mem_append.mp h with h | h
    · exact K.below.2 id h
    · cases List.mem_singleton.mp h
      exact K.below.1 x hx
  current := K.current
  replaced := K.replaced
  spared := K.spared

/-- A call takes over. -/
theorem tookOver (K : c.Kept) (h : id ∈ c.submitted) : Kept { c with
    service := c.service.supersede id
    submitted := c.submitted.erase id
    tookOver := c.tookOver ++ [id]
    cancelled := c.cancelled ++ c.service.superseded?.toList } := by
  obtain ⟨haccepted, hcurrent, -, hnext, -⟩ := c.service.supersede_frame id
  have hnodup : (c.tookOver ++ c.submitted).Nodup := K.order.nodup_iff.mpr K.distinct.2
  have hlate : id ∉ c.tookOver := fun hmem => List.disjoint_of_nodup_append hnodup hmem h
  have hreplaced : ∀ i, c.service.superseded? = some i → c.service.current = some i :=
    fun i hi => (Option.filter_eq_some_iff.mp hi).1
  constructor
  case order =>
    rw [haccepted, List.append_assoc]
    exact ((List.perm_cons_erase h).symm.append_left _).trans K.order
  case distinct => exact haccepted ▸ K.distinct
  case apart => exact haccepted ▸ K.apart
  case below => exact haccepted ▸ hnext ▸ K.below
  case current => rw [hcurrent, List.getLast?_concat]
  case replaced =>
    intro i hi hne
    rw [Service.status?_supersede]
    rw [hcurrent] at hne
    have hi : i ∈ c.tookOver := (List.mem_append.mp hi).resolve_right fun hi =>
      hne (congrArg some (List.mem_singleton.mp hi).symm)
    by_cases hlatest : c.service.current = some i
    · cases hend : c.service.status? i with
      | some => exact .inl rfl
      | none =>
        have hsome : c.service.superseded? = some i :=
          Option.filter_eq_some_iff.mpr ⟨hlatest, by simp [hend]⟩
        exact .inr (List.mem_append_right _ (by rw [hsome]; exact List.mem_singleton_self i))
    · exact (K.replaced i hi hlatest).imp_right (List.mem_append_left _)
  case spared =>
    intro i hi
    have hi : i ∈ c.tookOver := by
      rcases List.mem_append.mp hi with hi | hi
      · exact (K.spared i hi).1
      · have hlatest := hreplaced i (Option.mem_toList.mp hi)
        exact List.mem_of_getLast? (K.current.symm.trans hlatest)
    refine ⟨List.mem_append_left _ hi, fun heq => hlate ?_⟩
    rwa [Option.some.inj (hcurrent.symm.trans heq)]

variable [PerceptualLevel R]

theorem aside (K : c.Kept) {i : Incident R} (h : i.Aside) :
    Kept { c with service := c.service.incident i } := by
  obtain ⟨haccepted, hcurrent, hnext, hstatus⟩ := c.service.incident_aside h
  constructor
  case order => exact haccepted ▸ K.order
  case distinct => exact haccepted ▸ K.distinct
  case apart => exact haccepted ▸ K.apart
  case below => exact haccepted ▸ hnext ▸ K.below
  case current => exact hcurrent ▸ K.current
  case replaced =>
    intro id hid hne
    rw [hcurrent] at hne
    exact (K.replaced id hid hne).imp_left (hstatus id)
  case spared => exact hcurrent ▸ K.spared

theorem act (K : c.Kept) (a : Act R) : (c.act a).Kept := by
  cases a with
  | number caller v => exact K.numbered caller v
  | submit id =>
    unfold Callers.act
    dsimp only
    split
    · exact K
    · rename_i x k caller v hcall
      obtain rfl : k = id := by simpa using List.find?_some hcall
      have hmem := List.mem_of_find?_eq_some hcall
      split
      · exact K.refused k
      · rename_i y service hsubmit
        unfold Service.submit at hsubmit
        split at hsubmit
        · cases hsubmit
          exact K.submitted hmem _
        · cases hsubmit
  | takeOver id =>
    unfold Callers.act
    dsimp only
    split
    · exact K.tookOver ‹id ∈ c.submitted›
    · exact K
  | aside i h => exact K.aside h

theorem after (K : c.Kept) (as : List (Act R)) : (c.after as).Kept := by
  induction as using List.reverseRecOn with
  | nil => exact K
  | append_singleton as a ih =>
    rw [after_concat]
    exact ih.act a

end Kept

/-! ## Calls without anything in between -/

/-- A request is a call that nothing comes in between of. -/
theorem after_request [PerceptualLevel R] {c : Callers R} (K : c.Kept) {v w : Vibration R}
    {u : Usage} (caller : Caller) (h : c.service.prepare v u = .ok w) :
    (c.after [.number caller w, .submit c.service.nextId, .takeOver c.service.nextId]).service =
      (c.service.request v u caller).2 := by
  have hnone : c.numbered.find? (·.1 == c.service.nextId) = none := by
    refine List.find?_eq_none.mpr fun x hx heq => ?_
    exact Nat.ne_of_lt (K.below.1 x hx) (beq_iff_eq.mp heq)
  have hcall : (c.act (.number caller w)).call? c.service.nextId =
      some (c.service.nextId, caller, w) := by
    refine (List.find?_append ..).trans ?_
    rw [hnone, Option.none_or]
    exact List.find?_cons_of_pos (beq_self_eq_true _)
  have hlate : c.service.nextId ∉ c.submitted := fun hmem => by
    have haccepted := K.order.subset (List.mem_append_right _ hmem)
    exact Nat.lt_irrefl _ (K.below.2 _ haccepted)
  unfold Service.request
  rw [h, after_cons, after_cons, after_cons, after_nil]
  cases halive : c.service.workerAlive with
  | false =>
    have hstopped : (c.act (.number caller w)).service.submit c.service.nextId caller w =
        .error .workerStopped := if_neg (by simp [act, Service.allocate, halive])
    have hnumbered := act_submit_stopped hcall hstopped
    have hlate : c.service.nextId ∉
        ((c.act (.number caller w)).act (.submit c.service.nextId)).submitted := hnumbered ▸ hlate
    rw [act_takeOver_of_not_mem hlate, hnumbered]
    simp [act, Service.allocate, Service.submit, halive]
  | true =>
    have hsubmit : (c.act (.number caller w)).service.submit c.service.nextId caller w =
        .ok (c.service.enqueue caller w) := if_pos halive
    rw [act_submit hcall hsubmit,
      act_takeOver_of_mem (List.mem_append_right _ List.mem_cons_self)]
    simp [Service.allocate, Service.submit, halive, Service.enqueue, Service.tuning]

/-! ## The one that stays -/

/-- The newest vibration wins: those before it have ended or were sent a graceful cancel, and it is
the current one and was spared. -/
structure Newest (c : Callers R) (before : List Nat) (last : Nat) : Prop where
  earlier : ∀ id ∈ before, (c.service.status? id).isSome ∨ id ∈ c.cancelled
  spared : last ∉ c.cancelled
  current : c.service.current = some last

/-- However the actions of calls come in between of each other: when all calls have returned, the
vibration that took over last is the current one and was not cancelled by any of them, and all
others have ended or were sent a graceful cancel. So the vibration that was submitted last wins
exactly if it was the last to take over. -/
theorem after_calls [PerceptualLevel R] (rig : Rig R) (scaling : Scaling R) (as : List (Act R))
    (returned : ((fresh rig scaling).after as).submitted = []) :
    let c := (fresh rig scaling).after as
    c.tookOver.Perm c.service.accepted ∧
    c.service.current = c.tookOver.getLast? ∧
    (∀ id ∈ c.cancelled, c.service.current ≠ some id) ∧
    (∀ id ∈ c.service.accepted, c.service.current ≠ some id →
      (c.service.status? id).isSome ∨ id ∈ c.cancelled) ∧
    ∀ before last, c.service.accepted = before ++ [last] →
      (c.Newest before last ↔ c.tookOver.getLast? = some last) := by
  have K := (kept_fresh rig scaling).after as
  generalize (fresh rig scaling).after as = c at K returned
  have horder : c.tookOver.Perm c.service.accepted := by
    have horder := K.order
    rwa [returned, List.append_nil] at horder
  have hreplaced : ∀ id ∈ c.service.accepted, c.service.current ≠ some id →
      (c.service.status? id).isSome ∨ id ∈ c.cancelled :=
    fun id hid => K.replaced id (horder.symm.subset hid)
  refine ⟨horder, K.current, fun id hid => (K.spared id hid).2, hreplaced,
    fun before last haccepted => ⟨fun N => K.current ▸ N.current, fun hlast => ?_⟩⟩
  have hcurrent : c.service.current = some last := K.current.trans hlast
  refine ⟨fun id hid => ?_, fun hid => (K.spared last hid).2 hcurrent, hcurrent⟩
  have hdistinct := K.distinct.2
  rw [haccepted, ← List.concat_eq_append, List.nodup_concat] at hdistinct
  refine hreplaced id (haccepted ▸ List.mem_append_left _ hid) fun heq => hdistinct.1 ?_
  rwa [← Option.some.inj (heq.symm.trans hcurrent)]

/-- A buzz of some milliseconds. -/
def buzz (ms : Nat) : Vibration Rat := .mono (.pattern (.oneShot ms))

/-- A service with one actuator. -/
def idle : Callers Rat := fresh (.bench [0]) { tuning := .standard }

theorem after_calls_in_order :
    let as : List (Act Rat) := [.number default (buzz 500), .number default (buzz 20), .submit 2,
      .submit 1, .takeOver 2, .takeOver 1]
    (idle.after as).submitted = [] ∧ (idle.after as).Newest [2] 1 :=
  have returned : (idle.after [.number default (buzz 500), .number default (buzz 20), .submit 2,
      .submit 1, .takeOver 2, .takeOver 1]).submitted = [] := by decide +kernel
  ⟨returned, ((after_calls _ _ _ returned).2.2.2.2 [2] 1 (by decide +kernel)).mpr
    (by decide +kernel)⟩

/-- The second call submits last and takes over first. The first call cancels its vibration and is
the one that stays. -/
theorem newest_cancelled :
    let as : List (Act Rat) := [.number default (buzz 500), .number default (buzz 20), .submit 1,
      .submit 2, .takeOver 2, .takeOver 1]
    let c := idle.after as
    c.numbered.map (·.1) = [] ∧ c.submitted = [] ∧ c.service.accepted = [1] ++ [2] ∧
      c.service.current = some 1 ∧ c.cancelled = [2] ∧ c.service.status? 1 = none ∧
      c.service.mail? 1 = some [] ∧ c.service.mail? 2 = some [.graceful] ∧ ¬c.Newest [1] 2 :=
  ⟨by decide +kernel, by decide +kernel, by decide +kernel, by decide +kernel, by decide +kernel,
    by decide +kernel, by decide +kernel, by decide +kernel, fun N => N.spared (by decide +kernel)⟩

end Callers
end Haptics
