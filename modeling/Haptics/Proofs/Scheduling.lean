import Haptics.Proofs.Custody

/-!
# Which step comes out of a queue

Whatever was done with a queue before, at most one entry is next (`Queue.History.Next`): the one
whose release lies back furthest, or, if none was released, the one that precedes all others. It
comes out if it is free to (`Queue.History.Free`), and otherwise nothing does. So no step comes out
before its time, and the queue knows when it has to be looked at again.
-/

namespace Haptics

variable {α R : Type}

theorem StartTime.before_asymm {s t : StartTime} (h : s.before t = true) : ¬t.before s = true := by
  cases s <;> cases t <;> simp_all [before]
  omega

namespace Entry

theorem Precedes.asymm {e f : Entry α} (h : e.Precedes f) : ¬f.Precedes e := by
  rcases h with h | ⟨hstart, hlt⟩
  · rintro (hf | ⟨hstart, -⟩)
    · exact StartTime.before_asymm h hf
    · exact StartTime.before_asymm h (hstart ▸ h)
  · rintro (hf | ⟨-, hf⟩)
    · exact StartTime.before_asymm hf (hstart ▸ hf)
    · exact Nat.lt_asymm hlt hf

/-- What waits behind an instant waits for a later one, or for no instant. -/
theorem Precedes.le {e f : Entry α} {s t : Nat} (h : e.Precedes f) (he : e.start = .at s)
    (hf : f.start = .at t) : s ≤ t := by
  unfold Precedes at h
  rw [he, hf] at h
  rcases h with h | ⟨h, -⟩
  · exact Nat.le_of_lt (of_decide_eq_true h)
  · exact Nat.le_of_eq (StartTime.at.inj h)

/-- In front of an instant stands an instant. -/
theorem Precedes.exists_at {e f : Entry α} {t : Nat} (h : e.Precedes f) (hf : f.start = .at t) :
    ∃ s, e.start = .at s := by
  unfold Precedes at h
  rw [hf] at h
  cases he : e.start with
  | «at» s => exact ⟨s, rfl⟩
  | whenComplete | afterPending => simp [he, StartTime.before] at h

end Entry

namespace Queue

/-- What waits first may come out: its instant has come, or nothing waits behind it. -/
def Ripe (now : Nat) (e : Entry α) (rest : List (Entry α)) : Prop :=
  (∃ t ≤ now, e.start = .at t) ∨ e.start = .afterPending ∧ rest = []

theorem popDue_of_timed {q : Queue α} {e : Entry α} {es : List (Entry α)} (hr : q.released = [])
    (ht : q.timed = e :: es) (now : Nat) : q.popDue now =
      if e.start = .afterPending ∧ es ≠ [] then none
      else if e.start.isDue now then some (e.item, { q with timed := es }) else none := by
  unfold popDue
  rw [hr, ht]

theorem popDue_ripe {q : Queue α} {e : Entry α} {es : List (Entry α)} (hr : q.released = [])
    (ht : q.timed = e :: es) {now : Nat} (ripe : Ripe now e es) :
    q.popDue now = some (e.item, { q with timed := es }) := by
  rw [popDue_of_timed hr ht]
  rcases ripe with ⟨t, hle, hstart⟩ | ⟨hstart, rfl⟩
  · simp [hstart, StartTime.isDue, hle]
  · simp [hstart, StartTime.isDue]

theorem popDue_unripe {q : Queue α} {e : Entry α} {es : List (Entry α)} (hr : q.released = [])
    (ht : q.timed = e :: es) {now : Nat} (unripe : ¬Ripe now e es) : q.popDue now = none := by
  rw [popDue_of_timed hr ht]
  unfold Ripe at unripe
  cases hstart : e.start <;> simp_all [StartTime.isDue]

namespace History

/-- The entry whose turn is next: none of those that were released before it is still queued, or
none of those that are queued was released and it precedes all others. -/
def Next (h : History α) (e : Entry α) : Prop :=
  e ∈ h.queue.entries ∧
    ((∃ old new, h.releases = old ++ e.seq :: new ∧ ∀ f ∈ h.queue.entries, f.seq ∉ old) ∨
      (∀ f ∈ h.queue.entries, f.seq ∉ h.releases) ∧ ∀ f ∈ h.queue.entries, f ≠ e → e.Precedes f)

/-- The entry need not wait any more: it was released, or its instant has come, or it waits for
everything else and there is nothing else. -/
def Free (h : History α) (now : Nat) (e : Entry α) : Prop :=
  e.seq ∈ h.releases ∨ (∃ t ≤ now, e.start = .at t) ∨
    e.start = .afterPending ∧ h.queue.entries = [e]

namespace Sound

variable [Scheduled α] {h : History α} {e f : Entry α} {es : List (Entry α)}

theorem eq_of_seq (H : h.Sound) (he : e ∈ h.queue.entries) (hf : f ∈ h.queue.entries)
    (hseq : e.seq = f.seq) : e = f :=
  List.inj_on_of_nodup_map H.nodup he hf hseq

theorem next_of_released (H : h.Sound) (hr : h.queue.released = e :: es) :
    h.Next e ∧ e.seq ∈ h.releases := by
  have hsub := H.released
  have hnodup := H.releases
  have hwaiting := H.waiting
  rw [hr, List.map_cons] at hsub
  obtain ⟨front, back, hreleases, hfront, hback⟩ := List.cons_sublist_iff.mp hsub
  obtain ⟨old, new, rfl⟩ := List.append_of_mem hfront
  refine ⟨⟨?_, .inl ⟨old, new ++ back, by rw [hreleases]; simp, fun f hf hold => ?_⟩⟩,
    hsub.subset List.mem_cons_self⟩
  · rw [entries, hr]
    exact List.mem_cons_self
  · rw [hreleases] at hnodup hwaiting
    rw [entries, hr] at hf
    have hnot : f.seq ∉ e.seq :: new ∧ f.seq ∉ back := by
      rw [List.append_assoc] at hnodup
      have hdisjoint := (List.nodup_append'.mp hnodup).2.2 hold
      exact not_or.mp fun h => hdisjoint (List.mem_append.mpr h)
    rcases List.mem_cons.mp hf with rfl | hf
    · exact hnot.1 List.mem_cons_self
    · rcases List.mem_append.mp hf with hf | hf
      · exact hnot.2 (hback.subset (List.mem_map_of_mem hf))
      · exact hwaiting f hf (List.mem_append_left _ (List.mem_append_left _ hold))

theorem next_of_timed (H : h.Sound) (hr : h.queue.released = []) (ht : h.queue.timed = e :: es) :
    h.Next e ∧ e.seq ∉ h.releases := by
  have hentries : h.queue.entries = h.queue.timed := by rw [entries, hr, List.nil_append]
  have he : e ∈ h.queue.timed := by
    rw [ht]
    exact List.mem_cons_self
  refine ⟨⟨hentries ▸ he, .inr ⟨fun f hf => H.waiting f (hentries ▸ hf), fun f hf hne => ?_⟩⟩,
    H.waiting e he⟩
  have hsorted := H.sorted
  rw [hentries, ht] at hf
  rw [ht] at hsorted
  exact (List.pairwise_cons.mp hsorted).1 f ((List.mem_cons.mp hf).resolve_left hne)

/-- No two entries are next. -/
theorem next_unique (H : h.Sound) (he : h.Next e) (hf : h.Next f) : e = f := by
  obtain ⟨hein, he⟩ := he
  obtain ⟨hfin, hf⟩ := hf
  rcases he with ⟨old, new, hold, hnone⟩ | ⟨hnone, hfirst⟩
  · rcases hf with ⟨old', new', hold', hnone'⟩ | ⟨hnone', -⟩
    · rw [hold] at hold'
      refine H.eq_of_seq hein hfin ?_
      -- Neither stands before the other in the log.
      rcases List.append_eq_append_iff.mp hold' with ⟨mid, hmid, hrest⟩ | ⟨mid, hmid, hrest⟩
      · cases mid with
        | nil => exact (List.cons.inj hrest).1
        | cons n mid =>
          obtain ⟨rfl, -⟩ := List.cons.inj hrest
          exact (hnone' e hein (hmid ▸ List.mem_append_right _ List.mem_cons_self)).elim
      · cases mid with
        | nil => exact (List.cons.inj hrest).1.symm
        | cons n mid =>
          obtain ⟨rfl, -⟩ := List.cons.inj hrest
          exact (hnone f hfin (hmid ▸ List.mem_append_right _ List.mem_cons_self)).elim
    · exact (hnone' e hein (hold ▸ List.mem_append_right _ List.mem_cons_self)).elim
  · rcases hf with ⟨old', new', hold', -⟩ | ⟨-, hfirst'⟩
    · exact (hnone f hfin (hold' ▸ List.mem_append_right _ List.mem_cons_self)).elim
    · by_contra hne
      exact (hfirst f hfin (Ne.symm hne)).asymm (hfirst' e hein hne)

/-- What comes out of a queue with something in it, at any instant. -/
theorem exists_next (H : h.Sound) (hne : h.queue.entries ≠ []) : ∃ e q, h.Next e ∧
    (e :: q.entries).Perm h.queue.entries ∧ ∀ now, (h.Free now e → h.queue.popDue now =
      some (e.item, q)) ∧ (¬h.Free now e → h.queue.popDue now = none) := by
  cases hr : h.queue.released with
  | cons e es =>
    obtain ⟨hnext, hmem⟩ := H.next_of_released hr
    refine ⟨e, { h.queue with released := es }, hnext, ?_, fun now =>
      ⟨fun _ => popDue_of_released hr now, fun hfree => (hfree (.inl hmem)).elim⟩⟩
    rw [entries, entries, hr]
    exact .refl _
  | nil =>
    cases ht : h.queue.timed with
    | nil => exact (hne (by rw [entries, hr, ht]; rfl)).elim
    | cons e es =>
      obtain ⟨hnext, hmem⟩ := H.next_of_timed hr ht
      have hentries : h.queue.entries = e :: es := by rw [entries, hr, ht]; rfl
      have hfree : ∀ now, h.Free now e ↔ Ripe now e es := by
        intro now
        rw [Free, Ripe, hentries]
        simp [hmem]
      refine ⟨e, { h.queue with timed := es }, hnext, ?_, fun now =>
        ⟨fun h => popDue_ripe hr ht ((hfree now).mp h),
          fun h => popDue_unripe hr ht (mt (hfree now).mpr h)⟩⟩
      rw [hentries, entries, hr]
      exact .refl _

end Sound

/-- What a queue of steps does at an instant. -/
structure Schedules (h : History (Step R)) (now : Nat) : Prop where
  /-- Entries are filed under the start of the step that was inserted. -/
  filed : ∀ e ∈ h.queue.entries, h.Stems e
  next : h.queue.entries ≠ [] → ∃! e, h.Next e
  /-- What is next comes out if it is free to. -/
  pops e : h.Next e → h.Free now e →
    ∃ q, h.queue.popDue now = some (e.item, q) ∧ (e :: q.entries).Perm h.queue.entries
  /-- Nothing else comes out in its place. -/
  waits : (∀ e, h.Next e → ¬h.Free now e) → h.queue.popDue now = none
  /-- A step that waits for a report comes out only if it accepted one. -/
  reported x q : h.queue.popDue now = some (x, q) → Scheduled.start x = .whenComplete →
    ∃ n ∈ h.releases, ∃ y, h.pushed[n]? = some y ∧ Scheduled.Accepted y x
  /-- The closing step comes out last. -/
  closing q : h.queue.popDue now = some (.finish, q) → q.entries = []
  /-- Steps that start together come out as they were inserted, unless one was released. -/
  inOrder x q : h.queue.popDue now = some (x, q) → ∃ e, e.item = x ∧
    (e :: q.entries).Perm h.queue.entries ∧
    (e.seq ∈ h.releases ∨ ∀ f ∈ q.entries, f.start = e.start → e.seq < f.seq)
  /-- If a step waits for an instant, it is known when the next one has to be played, and that
  one is not due yet but will come out then. -/
  wakes : h.queue.popDue now = none → ∀ e ∈ h.queue.entries, ∀ t, e.start = .at t →
    ∃ s, h.queue.nextWake = some s ∧ now < s ∧ (h.queue.popDue s).isSome = true ∧
      (∃ f ∈ h.queue.entries, f.start = .at s) ∧
      ∀ f ∈ h.queue.entries, ∀ t, f.start = .at t → s ≤ t

namespace Sound

variable {h : History (Step R)} {q : Queue (Step R)} {x : Step R} {now : Nat}

/-- The entry that comes out. -/
theorem exists_popped (H : h.Sound) (hpop : h.queue.popDue now = some (x, q)) :
    ∃ e, e.item = x ∧ h.Next e ∧ h.Free now e ∧ (e :: q.entries).Perm h.queue.entries := by
  have hne : h.queue.entries ≠ [] := by
    intro hnil
    have hitems : h.queue.items = [] := List.map_eq_nil_iff.mpr hnil
    rw [items_of_popDue hpop] at hitems
    cases hitems
  obtain ⟨e, q', hnext, hperm, hnow⟩ := H.exists_next hne
  by_cases hfree : h.Free now e
  · have hpop' := (hnow now).1 hfree
    rw [hpop] at hpop'
    cases hpop'
    exact ⟨e, rfl, hnext, hfree, hperm⟩
  · rw [(hnow now).2 hfree] at hpop
    cases hpop

/-- An entry is filed under the start of its step. -/
theorem start_item (H : h.Sound) {e : Entry (Step R)} (he : e ∈ h.queue.entries) :
    Scheduled.start e.item = e.start := by
  obtain ⟨y, -, hstart, hbecomes⟩ := H.stems he
  rw [← hstart, hbecomes.map_eq start_accept]

theorem accepted_of_released (H : h.Sound) {e : Entry (Step R)} (he : e ∈ h.queue.entries)
    (released : e.seq ∈ h.releases) :
    ∃ y, h.pushed[e.seq]? = some y ∧ Scheduled.Accepted y e.item :=
  (List.mem_append.mp he).elim (H.accepted e) fun he => (H.waiting e he released).elim

theorem reported (H : h.Sound) (hpop : h.queue.popDue now = some (x, q))
    (hx : Scheduled.start x = .whenComplete) :
    ∃ n ∈ h.releases, ∃ y, h.pushed[n]? = some y ∧ Scheduled.Accepted y x := by
  obtain ⟨e, rfl, hnext, hfree, -⟩ := H.exists_popped hpop
  rw [H.start_item hnext.1] at hx
  rcases hfree with hmem | ⟨t, -, hstart⟩ | ⟨hstart, -⟩
  · exact ⟨e.seq, hmem, H.accepted_of_released hnext.1 hmem⟩
  · cases hx.symm.trans hstart
  · cases hx.symm.trans hstart

theorem closing (H : h.Sound) (hpop : h.queue.popDue now = some (.finish, q)) : q.entries = [] := by
  obtain ⟨e, hitem, hnext, hfree, hperm⟩ := H.exists_popped hpop
  have hstart := H.start_item hnext.1
  rw [hitem] at hstart
  rcases hfree with hmem | ⟨t, -, hat⟩ | ⟨-, halone⟩
  · obtain ⟨y, -, z, a, step, now, -, hok⟩ := H.accepted_of_released hnext.1 hmem
    exact (part_ne_closing_of_accept hok (by rw [hitem]; rfl)).elim
  · cases hstart.trans hat
  · rw [halone] at hperm
    exact (List.cons.inj (List.perm_singleton.mp hperm)).2

theorem inOrder (H : h.Sound) (hpop : h.queue.popDue now = some (x, q)) : ∃ e, e.item = x ∧
    (e :: q.entries).Perm h.queue.entries ∧
    (e.seq ∈ h.releases ∨ ∀ f ∈ q.entries, f.start = e.start → e.seq < f.seq) := by
  obtain ⟨e, hitem, ⟨he, hnext⟩, -, hperm⟩ := H.exists_popped hpop
  refine ⟨e, hitem, hperm, ?_⟩
  rcases hnext with ⟨old, new, hold, -⟩ | ⟨-, hfirst⟩
  · exact .inl (hold ▸ List.mem_append_right _ List.mem_cons_self)
  · refine .inr fun f hf hstart => ?_
    have hseqs : ((e :: q.entries).map (·.seq)).Nodup := (hperm.map _).nodup_iff.mpr H.nodup
    have hne : f ≠ e := by
      rintro rfl
      exact (List.nodup_cons.mp hseqs).1 (List.mem_map_of_mem hf)
    rcases hfirst f (hperm.subset (List.mem_cons_of_mem e hf)) hne with hbefore | ⟨-, hlt⟩
    · rw [hstart] at hbefore
      exact (StartTime.before_asymm hbefore hbefore).elim
    · exact hlt

/-- If a step waits for an instant, the one that waits first does, and for the least of them. -/
theorem exists_first (H : h.Sound) (hr : h.queue.released = []) {e : Entry (Step R)}
    (he : e ∈ h.queue.entries) {t : Nat} (ht : e.start = .at t) :
    ∃ f fs s, h.queue.timed = f :: fs ∧ f.start = .at s ∧
      ∀ g ∈ h.queue.entries, ∀ u, g.start = .at u → s ≤ u := by
  have hentries : h.queue.entries = h.queue.timed := by rw [entries, hr, List.nil_append]
  have hsorted := H.sorted
  rw [hentries] at he ⊢
  cases htimed : h.queue.timed with
  | nil =>
    rw [htimed] at he
    cases he
  | cons f fs =>
    rw [htimed] at he hsorted
    have hfirst := (List.pairwise_cons.mp hsorted).1
    obtain ⟨s, hs⟩ : ∃ s, f.start = .at s := by
      rcases List.mem_cons.mp he with rfl | he
      · exact ⟨t, ht⟩
      · exact (hfirst e he).exists_at ht
    refine ⟨f, fs, s, rfl, hs, fun g hg u hu => ?_⟩
    rcases List.mem_cons.mp hg with rfl | hg
    · exact Nat.le_of_eq (StartTime.at.inj (hs.symm.trans hu))
    · exact (hfirst g hg).le hs hu

theorem wakes (H : h.Sound) (hpop : h.queue.popDue now = none) {e : Entry (Step R)}
    (he : e ∈ h.queue.entries) {t : Nat} (ht : e.start = .at t) :
    ∃ s, h.queue.nextWake = some s ∧ now < s ∧ (h.queue.popDue s).isSome = true ∧
      (∃ f ∈ h.queue.entries, f.start = .at s) ∧
      ∀ f ∈ h.queue.entries, ∀ t, f.start = .at t → s ≤ t := by
  cases hr : h.queue.released with
  | cons f fs =>
    rw [popDue_of_released hr] at hpop
    cases hpop
  | nil =>
    obtain ⟨f, fs, s, htimed, hs, hleast⟩ := H.exists_first hr he ht
    have hf : f ∈ h.queue.entries := by
      rw [entries, hr, htimed]
      exact List.mem_cons_self
    have hpops : ∀ now, s ≤ now → h.queue.popDue now =
        some (f.item, { h.queue with timed := fs }) :=
      fun now hle => popDue_ripe hr htimed (.inl ⟨s, hle, hs⟩)
    refine ⟨s, by simp [nextWake, htimed, hs, StartTime.instant?], ?_, ?_, ⟨f, hf, hs⟩, hleast⟩
    · by_contra hle
      rw [hpops now (Nat.le_of_not_lt hle)] at hpop
      cases hpop
    · rw [hpops s (Nat.le_refl s)]
      rfl

theorem schedules (H : h.Sound) (now : Nat) : h.Schedules now where
  filed _ := H.stems
  next hne := by
    obtain ⟨e, -, hnext, -⟩ := H.exists_next hne
    exact ⟨e, hnext, fun f hf => H.next_unique hf hnext⟩
  pops e he hfree := by
    obtain ⟨f, q, hnext, hperm, hnow⟩ := H.exists_next (List.ne_nil_of_mem he.1)
    obtain rfl := H.next_unique he hnext
    exact ⟨q, (hnow now).1 hfree, hperm⟩
  waits hnone := by
    cases hpop : h.queue.popDue now with
    | none => rfl
    | some p =>
      obtain ⟨e, -, hnext, hfree, -⟩ := H.exists_popped hpop
      exact (hnone e hnext hfree).elim
  reported _ _ := H.reported
  closing _ := H.closing
  inOrder _ _ := H.inOrder
  wakes hpop _ he _ := H.wakes hpop he

end Sound

/-- Whatever was done with a queue before, what comes out of it at an instant is settled by the
starts, the numbers and the releases of its entries. -/
theorem schedules_after (us : List (Use (Step R))) (now : Nat) : (after us).Schedules now :=
  (sound_after us).schedules now

/-- A step whose report is accepted comes out before one that is due, and the closing step has to
wait for both. -/
example :
    let off (id t i : Nat) : Step Rat :=
      .lane { id, start := .at t, actuator := id, deadline := .at 900 i } .turnOff
    let h := after [.push .finish, .push (off 1 5 7), .push (off 2 800 8), .popDue 4,
      .acceptCompletion 2 (some 8) 5, .popDue 5, .popDue 5, .popDue 5]
    h.taken.map (·.part) = [.lane 2, .lane 1, .closing] ∧ h.releases = [2] := by
  decide

end History
end Queue
end Haptics
