import Haptics.Hardware.Rig

/-!
# What operations on the hardware do and leave alone

An operation on one device takes no time and touches neither the group nor any other device, and a
call to the group takes no time and touches no device. A stop leaves its device idle, and a drive
turns its device on only if its answer is positive.
-/

namespace Haptics

variable {R : Type}

/-! ## Answers to drives -/

section
variable [Level R]

theorem driveResult_pos {ms : Nat} (h : ms ≠ 0) : 0 < driveResult ms := by
  unfold driveResult indefinite
  omega

theorem HardwareError.driveResult_le (e : HardwareError) : e.driveResult ≤ 0 := by
  cases e <;> simp [driveResult]

/-- A drive left the device as it was, unless it started something. A hold for no time is
started. -/
def Device.Answered (d : Device R) (x : Drive R) (r : Reaction R Int) : Prop :=
  r.device = d ∨ 0 < r.value ∨ x = .hold 0

namespace Device

variable (d : Device R) (v i : Nat) (x : Drive R)

theorem driveNegotiated_answered : d.Answered x (d.driveNegotiated v i x) := by
  unfold driveNegotiated
  dsimp only
  split
  · exact .inl rfl
  · rename_i hneeds
    simp only [Bool.or_eq_true, not_or, beq_iff_eq] at hneeds
    split
    · exact .inl rfl
    · exact .inl rfl
    · rename_i x _ _ _ _ hms
      right
      cases x with
      | hold ms =>
        by_cases h : ms = 0
        · exact .inr (by rw [h])
        · exact .inl (driveResult_pos h)
      | prebaked p => exact .inl (driveResult_pos fun h => hms p rfl (congrArg some h))
      | composition | ramps | envelope =>
        exact .inl (driveResult_pos fun h => hneeds.2 (congrArg some h))
      | vendor => exact .inl (by decide : 0 < indefinite)

theorem driveDirect_answered : d.Answered x (d.driveDirect v i x) := by
  refine iteInduction (motive := d.Answered x) (fun _ => .inl rfl) fun hneeds => ?_
  split
  · exact .inl rfl
  · exact .inl rfl
  · exact .inl rfl
  · exact .inl rfl
  · rename_i x _ _ _ _ h₁ h₂ h₃
    right
    cases x with
    | hold ms =>
      by_cases h : ms = 0
      · exact .inr (by rw [h])
      · exact .inl (driveResult_pos h)
    | prebaked p => exact .inl (driveResult_pos fun h => h₁ p rfl h)
    | composition ps => exact .inl (driveResult_pos fun h => h₂ ps rfl h)
    | ramps rs => exact .inl (driveResult_pos fun h => h₃ rs rfl h)
    | envelope | vendor => exact absurd rfl hneeds

end Device

theorem Device.device_drive (d : Device R) (v i : Nat) {x : Drive R} (hx : x ≠ .hold 0)
    (h : (d.drive v i x).value ≤ 0) : (d.drive v i x).device = d := by
  have H : d.Answered x (d.drive v i x) := by
    unfold drive
    split
    · exact d.driveNegotiated_answered v i x
    · exact d.driveDirect_answered v i x
  refine H.resolve_right fun H => H.elim (Int.not_lt.mpr h) hx

/-- A hold that is successful is answered with its duration. -/
theorem Device.value_hold (d : Device R) (v i ms : Nat) :
    (d.drive v i (.hold ms)).value ≤ 0 ∨ (d.drive v i (.hold ms)).value = driveResult ms := by
  unfold drive
  split
  · unfold driveNegotiated
    cases hf : d.motor.failure with
    | some e => exact .inl (by simpa [promised?, Drive.needs] using e.driveResult_le)
    | none => exact .inr (by simp [promised?, Drive.needs, Motor.duration?])
  · unfold driveDirect
    cases hf : d.motor.failure with
    | some e => exact .inl (by simpa [Drive.needs] using e.driveResult_le)
    | none => exact .inr (by simp [Drive.needs, Motor.duration?])

omit [Level R] in
@[simp] theorem Device.activity_setAmplitude (d : Device R) (x : R) :
    (d.setAmplitude x).device.control.activity = d.control.activity := by
  unfold setAmplitude
  split
  · dsimp only
    split
    · unfold Control.recordAmplitude
      split <;> rfl
    · rfl
  · rfl

end

namespace Rig

/-! ## The record -/

section
variable (r : Rig R)

@[simp] theorem note_now (x : Signal R) : (r.note x).now = r.now := by cases x <;> rfl

@[simp] theorem note_devices (x : Signal R) : (r.note x).devices = r.devices := by cases x <;> rfl

@[simp] theorem note_group (x : Signal R) : (r.note x).group = r.group := by cases x <;> rfl

@[simp] theorem note_bridge (x : Signal R) : (r.note x).bridge = r.bridge := by cases x <;> rfl

@[simp] theorem noteAll_now (xs : List (Signal R)) : (r.noteAll xs).now = r.now := by
  induction xs generalizing r with
  | nil => rfl
  | cons x xs ih => exact (ih (r.note x)).trans (note_now r x)

@[simp] theorem noteAll_devices (xs : List (Signal R)) : (r.noteAll xs).devices = r.devices := by
  induction xs generalizing r with
  | nil => rfl
  | cons x xs ih => exact (ih (r.note x)).trans (note_devices r x)

@[simp] theorem noteAll_group (xs : List (Signal R)) : (r.noteAll xs).group = r.group := by
  induction xs generalizing r with
  | nil => rfl
  | cons x xs ih => exact (ih (r.note x)).trans (note_group r x)

@[simp] theorem noteAll_bridge (xs : List (Signal R)) : (r.noteAll xs).bridge = r.bridge := by
  induction xs generalizing r with
  | nil => rfl
  | cons x xs ih => exact (ih (r.note x)).trans (note_bridge r x)

end

/-! ## One device -/

/-- Files a device under a number. -/
def file (r : Rig R) (a : ActuatorId) (d : Device R) : Rig R :=
  { r with devices := r.devices.insert a d }

theorem device?_file (r : Rig R) (a : ActuatorId) (d : Device R) (b : ActuatorId) :
    (r.file a d).device? b = if b = a then some d else r.device? b := Table.find?_insert ..

section
variable {α : Type} (r : Rig R) (a : ActuatorId) (other : α) (f : Device R → Reaction R α)

@[simp] theorem onDevice_now : (r.onDevice a other f).2.now = r.now := by
  unfold onDevice; split <;> simp

@[simp] theorem onDevice_group : (r.onDevice a other f).2.group = r.group := by
  unfold onDevice; split <;> simp

theorem device?_onDevice (b : ActuatorId) : (r.onDevice a other f).2.device? b =
    if b = a then (r.device? a).map fun d => (f d).device else r.device? b := by
  unfold onDevice
  split
  · rename_i hd
    by_cases hb : b = a <;> simp [hb, hd]
  · rename_i d hd
    simp only [device?, noteAll_devices, Table.find?_insert]
    by_cases hb : b = a
    · simp only [device?] at hd; simp [hb, hd]
    · simp [hb]

end

/-! ## The operations of a lane -/

section
variable [Level R] (r : Rig R) (a : ActuatorId)

@[simp] theorem stop_now : (r.stop a).now = r.now := onDevice_now ..

@[simp] theorem stop_group : (r.stop a).group = r.group := onDevice_group ..

theorem device?_stop_of_ne {b : ActuatorId} (h : b ≠ a) : (r.stop a).device? b = r.device? b := by
  simp [stop, device?_onDevice, h]

@[simp] theorem drive_now (v i : Nat) (x : Drive R) : (r.drive a v i x).2.now = r.now :=
  onDevice_now ..

@[simp] theorem drive_group (v i : Nat) (x : Drive R) : (r.drive a v i x).2.group = r.group :=
  onDevice_group ..

theorem device?_drive_of_ne (v i : Nat) (x : Drive R) {b : ActuatorId} (h : b ≠ a) :
    (r.drive a v i x).2.device? b = r.device? b := by
  simp [drive, device?_onDevice, h]

omit [Level R] in
@[simp] theorem setAmplitude_now (x : R) : (r.setAmplitude a x).2.now = r.now := onDevice_now ..

omit [Level R] in
@[simp] theorem setAmplitude_group (x : R) : (r.setAmplitude a x).2.group = r.group :=
  onDevice_group ..

omit [Level R] in
theorem device?_setAmplitude_of_ne (x : R) {b : ActuatorId} (h : b ≠ a) :
    (r.setAmplitude a x).2.device? b = r.device? b := by
  simp [setAmplitude, device?_onDevice, h]

/-! ## Activity -/

omit [Level R] in
theorem isActive_congr {r r' : Rig R} {a : ActuatorId} (h : r'.device? a = r.device? a) :
    r'.isActive a = r.isActive a := by
  simp only [isActive, h]

@[simp] theorem isActive_stop_self : (r.stop a).isActive a = false := by
  simp only [isActive, stop, device?_onDevice]
  cases r.device? a <;> rfl

theorem isActive_stop (b : ActuatorId) :
    (r.stop a).isActive b = (r.isActive b && decide (a ≠ b)) := by
  by_cases h : b = a
  · simp [h]
  · rw [isActive_congr (device?_stop_of_ne r a h)]
    simp [Ne.symm h]

omit [Level R] in
@[simp] theorem isActive_setAmplitude (x : R) (b : ActuatorId) :
    (r.setAmplitude a x).2.isActive b = r.isActive b := by
  simp only [isActive, setAmplitude, device?_onDevice]
  split
  · rename_i hb
    subst hb
    cases r.device? b <;> simp
  · rfl

/-- A drive that was not successful leaves the actuators as they were. -/
theorem isActive_drive (v i : Nat) {x : Drive R} (hx : x ≠ .hold 0)
    (h : (r.drive a v i x).1 ≤ 0) (b : ActuatorId) :
    (r.drive a v i x).2.isActive b = r.isActive b := by
  refine isActive_congr ?_
  simp only [drive, device?_onDevice]
  split
  · rename_i hb
    subst hb
    cases hd : r.device? b with
    | none => rfl
    | some d =>
      have hvalue : (r.drive b v i x).1 = (d.drive v i x).value := by
        simp only [drive, onDevice, hd]
      rw [hvalue] at h
      rw [Option.map_some, d.device_drive v i hx h]
  · rfl

theorem value_hold {v i ms : Nat} (h : 0 < (r.drive a v i (.hold ms)).1) :
    (r.drive a v i (.hold ms)).1 = driveResult ms := by
  unfold drive onDevice at h ⊢
  cases hd : r.device? a with
  | none =>
    rw [hd] at h
    exact absurd h (Int.lt_irrefl 0)
  | some d =>
    rw [hd] at h
    exact (d.value_hold v i ms).resolve_left (Int.not_le.mpr h)

end

/-! ## The group -/

section
variable (r : Rig R)

@[simp] theorem prepare_now (required : Flags GroupCapability) (ids : List ActuatorId) :
    (r.prepare required ids).2.now = r.now := noteAll_now ..

@[simp] theorem prepare_group (required : Flags GroupCapability) (ids : List ActuatorId) :
    (r.prepare required ids).2.group = r.group := noteAll_group ..

@[simp] theorem prepare_devices (required : Flags GroupCapability) (ids : List ActuatorId) :
    (r.prepare required ids).2.devices = r.devices := noteAll_devices ..

@[simp] theorem onGroup_now {α : Type} (f : Group → α × Group × List (Call R)) :
    (r.onGroup f).2.now = r.now := noteAll_now ..

@[simp] theorem onGroup_devices {α : Type} (f : Group → α × Group × List (Call R)) :
    (r.onGroup f).2.devices = r.devices := noteAll_devices ..

@[simp] theorem onGroup_group {α : Type} (f : Group → α × Group × List (Call R)) :
    (r.onGroup f).2.group = (f r.group).2.1 := noteAll_group ..

@[simp] theorem onGroup_bridge {α : Type} (f : Group → α × Group × List (Call R)) :
    (r.onGroup f).2.bridge = r.bridge := noteAll_bridge ..

end
end Rig
end Haptics
