import Haptics.Proofs.Lists
import Haptics.Proofs.Queue

/-!
# Nothing is lost in a queue

A queue is followed from the moment it was empty through everything that is done with it
(`Queue.History`). Every item carries the number of its insertion from then on, and at any time the
numbers of what was taken out and of what is still queued are all the numbers there are, each once
(`Queue.History.Sound`). So whatever was inserted was taken out or is still there, reports move
entries from those that wait behind those that were released and leave the others in their order
(`Queue.Moved`), and both ways to empty a queue list all of it.
-/

namespace Haptics

variable {α R : Type}

namespace Entry

/-- What an entry is filed under: its start and the number of its insertion. -/
def key (e : Entry α) : StartTime × Nat := (e.start, e.seq)

/-- The order in which entries wait: by start, and by insertion if they start together. -/
def Precedes (e f : Entry α) : Prop :=
  e.start.before f.start = true ∨ e.start = f.start ∧ e.seq < f.seq

theorem pairwise_of_keys {es fs : List (Entry α)} (h : (es.map key).Sublist (fs.map key))
    (sorted : fs.Pairwise Precedes) : es.Pairwise Precedes := by
  have hkeys : (fs.map key).Pairwise fun k l => k.1.before l.1 = true ∨ k.1 = l.1 ∧ k.2 < l.2 :=
    List.pairwise_map.mpr sorted
  exact .of_map key (fun _ _ h => h) (hkeys.sublist h)

theorem map_seq_eq (es : List (Entry α)) : es.map (·.seq) = (es.map key).map (·.2) := by
  rw [List.map_map]
  rfl

/-- An entry after a report was offered to it. -/
def offered [Scheduled α] (a : ActuatorId) (step : Option Nat) (now : Nat) (e : Entry α) :
    Entry α :=
  { e with item := (Scheduled.accept e.item a step now).2 }

theorem map_key_offered [Scheduled α] (a : ActuatorId) (step : Option Nat) (now : Nat)
    (es : List (Entry α)) : (es.map (·.offered a step now)).map key = es.map key :=
  List.map_map ..

end Entry

/-! ## What reports make of an item -/

namespace Scheduled

variable [Scheduled α]

/-- What an item can have become since: reports were offered to it. -/
inductive Becomes (x : α) : α → Prop
  | refl : Becomes x x
  | offered {y} (h : Becomes x y) (a : ActuatorId) (step : Option Nat) (now : Nat) :
    Becomes x (accept y a step now).2

/-- What an item became when it accepted a report. -/
def Accepted (x y : α) : Prop :=
  ∃ z a step now, Becomes x z ∧ accept z a step now = (true, y)

variable {x y : α}

theorem Becomes.map_eq {β : Type} {f : α → β} (h : Becomes x y)
    (hf : ∀ x a step now, f (accept x a step now).2 = f x) : f y = f x := by
  induction h with
  | refl => rfl
  | offered _ a step now ih => exact (hf _ a step now).trans ih

end Scheduled

namespace Queue

/-- All entries of a queue, those that were released first. -/
def entries (q : Queue α) : List (Entry α) := q.released ++ q.timed

theorem length_eq (q : Queue α) : q.length = q.entries.length := by
  rw [length, entries, List.length_append, Nat.add_comm]

theorem isEmpty_iff_length {q : Queue α} : q.isEmpty = true ↔ q.length = 0 := by
  rw [isEmpty_iff, items, List.map_eq_nil_iff, length_eq, List.length_eq_zero_iff, entries]

/-- An entry with a new number goes where it belongs. -/
theorem pairwise_place_last (e : Entry α) {es : List (Entry α)}
    (sorted : es.Pairwise Entry.Precedes) (last : ∀ f ∈ es, f.seq < e.seq) :
    (place e es).Pairwise Entry.Precedes := by
  induction es with
  | nil => exact List.pairwise_singleton _ e
  | cons x es ih =>
    obtain ⟨hx, hes⟩ := List.pairwise_cons.mp sorted
    unfold place
    split
    · rename_i hbefore
      refine List.pairwise_cons.mpr ⟨fun f hf => .inl ?_, sorted⟩
      rcases List.mem_cons.mp hf with rfl | hf
      · exact hbefore
      · rcases hx f hf with hxf | ⟨hxf, -⟩
        · revert hbefore hxf
          cases e.start <;> cases x.start <;> cases f.start <;> simp [StartTime.before]
          omega
        · rwa [← hxf]
    · rename_i hbefore
      refine List.pairwise_cons.mpr
        ⟨fun f hf => ?_, ih hes fun f hf => last f (List.mem_cons_of_mem x hf)⟩
      rcases List.mem_cons.mp ((place_perm e es).mem_iff.mp hf) with rfl | hf
      · have hlt := last x List.mem_cons_self
        unfold Entry.Precedes
        revert hbefore
        cases f.start <;> cases x.start <;> simp [StartTime.before, hlt]
        omega
      · exact hx f hf

/-! ## What a report does to a queue -/

section
variable [Scheduled α] (a : ActuatorId) (step : Option Nat) (now : Nat)

/-- A report leaves every entry it is offered to where it is, up to the first that accepts it. -/
inductive Answers (q : Queue α) : Bool → Queue α → Prop
  | refused : Answers q false { q with timed := q.timed.map (·.offered a step now) }
  | accepted {es e fs} (timed : q.timed = es ++ e :: fs)
      (ok : (Scheduled.accept e.item a step now).1 = true) :
    Answers q true { q with
      timed := es.map (·.offered a step now) ++ fs
      released := q.released ++ [e.offered a step now] }

theorem offer_cases (es : List (Entry α)) :
    offer a step now es = (none, es.map (·.offered a step now)) ∨ ∃ fs e gs, es = fs ++ e :: gs ∧
      (Scheduled.accept e.item a step now).1 = true ∧
      offer a step now es = (some (e.offered a step now), fs.map (·.offered a step now) ++ gs) := by
  induction es with
  | nil => exact .inl rfl
  | cons e es ih =>
    unfold offer
    split
    · rename_i x hx
      refine .inr ⟨[], e, es, rfl, by rw [hx], ?_⟩
      unfold Entry.offered
      rw [hx]
      rfl
    · rename_i x hx
      have he : ({ e with item := x } : Entry α) = e.offered a step now := by
        rw [Entry.offered, hx]
      rw [he]
      rcases ih with ih | ⟨fs, f, gs, rfl, hok, ih⟩
      · exact .inl (by rw [ih]; rfl)
      · exact .inr ⟨e :: fs, f, gs, rfl, hok, by rw [ih]; rfl⟩

theorem answers (q : Queue α) :
    q.Answers a step now (q.acceptCompletion a step now).1 (q.acceptCompletion a step now).2 := by
  unfold acceptCompletion
  rcases offer_cases a step now q.timed with h | ⟨es, e, fs, ht, hok, h⟩
  · rw [h]
    exact .refused
  · rw [h]
    exact .accepted ht hok

variable {a step now}

namespace Answers

variable {q q' : Queue α} {ok : Bool}

theorem keys (H : q.Answers a step now ok q') :
    (q'.entries.map Entry.key).Perm (q.entries.map Entry.key) := by
  unfold entries
  cases H with
  | refused =>
    rw [List.map_append, Entry.map_key_offered, ← List.map_append]
  | accepted ht =>
    rw [ht]
    simp only [List.map_append, List.map_cons, Entry.map_key_offered,
      List.append_assoc, List.cons_append, List.nil_append]
    exact List.perm_middle.symm.append_left _

theorem entries (H : q.Answers a step now ok q') :
    ∀ e ∈ q'.entries, e ∈ q.entries ∨ ∃ f ∈ q.entries, e = f.offered a step now := by
  unfold Queue.entries
  cases H with
  | refused => grind
  | accepted ht => grind

theorem released (H : q.Answers a step now ok q') : ∀ e ∈ q'.released, e ∈ q.released ∨
    ∃ f ∈ q.timed, (Scheduled.accept f.item a step now).1 = true ∧ e = f.offered a step now := by
  cases H with
  | refused => exact fun e he => .inl he
  | accepted ht hok =>
    intro e he
    rcases List.mem_append.mp he with he | he
    · exact .inl he
    · rw [List.mem_singleton.mp he, ht]
      exact .inr ⟨_, List.mem_append_right _ List.mem_cons_self, hok, rfl⟩

theorem isPrefix (H : q.Answers a step now ok q') : q.released <+: q'.released := by
  cases H with
  | refused => exact List.prefix_rfl
  | accepted => exact List.prefix_append ..

theorem nextSeq (H : q.Answers a step now ok q') : q'.nextSeq = q.nextSeq := by
  cases H <;> rfl

end Answers

/-- The entries `ms` went from those that wait behind those that were released. All others stay
where they are, in their order. -/
structure Moved (q q' : Queue α) (ms : List (Entry α)) : Prop where
  released : q'.released = q.released ++ ms
  timed : q'.timed.map Entry.key = (q.timed.map Entry.key).filter (·.2 ∉ ms.map (·.seq))
  waited : ∀ e ∈ ms, e.key ∈ q.timed.map Entry.key
  once : (ms.map (·.seq)).Nodup

namespace Moved

variable {q q' q'' : Queue α} {ms ns : List (Entry α)}

omit [Scheduled α] in
theorem of_keys (released : q'.released = q.released)
    (timed : q'.timed.map Entry.key = q.timed.map Entry.key) : q.Moved q' [] where
  released := by rw [released, List.append_nil]
  timed := by
    rw [timed]
    exact (List.filter_eq_self.mpr fun _ _ => rfl).symm
  waited _ he := (List.not_mem_nil he).elim
  once := .nil

omit [Scheduled α] in
theorem keys (H : q.Moved q' ms) : (q'.timed.map Entry.key).Sublist (q.timed.map Entry.key) := by
  rw [H.timed]
  exact List.filter_sublist

omit [Scheduled α] in
theorem mem_waited (H : q.Moved q' ms) {n : Nat} (hn : n ∈ ms.map (·.seq)) :
    ∃ e ∈ q.timed, e.seq = n := by
  obtain ⟨f, hf, rfl⟩ := List.mem_map.mp hn
  obtain ⟨e, he, hkey⟩ := List.mem_map.mp (H.waited f hf)
  exact ⟨e, he, congrArg (·.2) hkey⟩

omit [Scheduled α] in
theorem mem_stays (H : q.Moved q' ms) {e : Entry α} (he : e ∈ q'.timed) :
    (∃ f ∈ q.timed, f.seq = e.seq) ∧ e.seq ∉ ms.map (·.seq) := by
  have hkey : e.key ∈ q'.timed.map Entry.key := List.mem_map_of_mem he
  rw [H.timed] at hkey
  obtain ⟨hkey, hstays⟩ := List.mem_filter.mp hkey
  obtain ⟨f, hf, hseq⟩ := List.mem_map.mp hkey
  exact ⟨⟨f, hf, congrArg (·.2) hseq⟩, of_decide_eq_true hstays⟩

omit [Scheduled α] in
theorem trans (H : q.Moved q' ms) (H' : q'.Moved q'' ns) : q.Moved q'' (ms ++ ns) where
  released := by rw [H'.released, H.released, List.append_assoc]
  timed := by
    rw [H'.timed, H.timed, List.filter_filter]
    refine List.filter_congr fun k _ => ?_
    rw [List.map_append, ← Bool.decide_and]
    simp only [List.mem_append, not_or, and_comm]
  waited e he := (List.mem_append.mp he).elim (H.waited e) fun he => H.keys.subset (H'.waited e he)
  once := by
    rw [List.map_append]
    refine List.nodup_append'.mpr ⟨H.once, H'.once, fun n hn hn' => ?_⟩
    obtain ⟨e, he, rfl⟩ := List.mem_map.mp hn'
    have hkey := H'.waited e he
    rw [H.timed] at hkey
    exact of_decide_eq_true (List.mem_filter.mp hkey).2 hn

end Moved

omit [Scheduled α] in
/-- One entry is taken out of a list by its number. -/
theorem filter_key {es fs : List (Entry α)} {e : Entry α}
    (once : ((es ++ e :: fs).map (·.seq)).Nodup) :
    ((es ++ e :: fs).map Entry.key).filter (·.2 ∉ [e.seq]) = (es ++ fs).map Entry.key := by
  have hne : ∀ f ∈ es ++ fs, f.seq ≠ e.seq := by
    intro f hf h
    have hperm : ((es ++ e :: fs).map (·.seq)).Perm (e.seq :: (es ++ fs).map (·.seq)) :=
      (List.perm_middle.map _)
    exact (List.nodup_cons.mp (hperm.nodup_iff.mp once)).1 (h ▸ List.mem_map_of_mem hf)
  have hstays : ∀ gs : List (Entry α), (∀ f ∈ gs, f ∈ es ++ fs) →
      (gs.map Entry.key).filter (·.2 ∉ [e.seq]) = gs.map Entry.key := by
    intro gs hgs
    refine List.filter_eq_self.mpr fun k hk => ?_
    obtain ⟨f, hf, rfl⟩ := List.mem_map.mp hk
    simpa [Entry.key] using hne f (hgs f hf)
  rw [List.map_append, List.map_cons, List.filter_append, List.map_append,
    hstays es fun f => List.mem_append_left fs, List.filter_cons_of_neg (by simp [Entry.key]),
    hstays fs fun f => List.mem_append_right es]

/-- A report moves the entry that accepts it, if there is one. -/
theorem Answers.moved {q q' : Queue α} {ok : Bool} (H : q.Answers a step now ok q')
    (once : (q.timed.map (·.seq)).Nodup) : ∃ ms, q.Moved q' ms ∧ ms.length = ok.toNat ∧
      ∀ e ∈ ms, ∃ x, Scheduled.accept x a step now = (true, e.item) := by
  cases H with
  | refused =>
    exact ⟨[], .of_keys rfl (Entry.map_key_offered ..), rfl, fun _ he => (List.not_mem_nil he).elim⟩
  | @accepted es e fs ht hok =>
    refine ⟨[e.offered a step now], ⟨rfl, ?_, ?_, List.nodup_singleton _⟩, rfl, ?_⟩
    · rw [ht] at once ⊢
      rw [List.map_append, Entry.map_key_offered, ← List.map_append]
      exact (filter_key once).symm
    · intro f hf
      rw [List.mem_singleton.mp hf, ht]
      show e.key ∈ _
      exact List.mem_map_of_mem (List.mem_append_right es List.mem_cons_self)
    · intro f hf
      rw [List.mem_singleton.mp hf]
      exact ⟨e.item, Prod.ext hok rfl⟩

/-- Offers the report of a whole group to one more actuator. -/
def offerNext (now : Nat) (p : Nat × Queue α) (a : ActuatorId) : Nat × Queue α :=
  (if (p.2.acceptCompletion a none now).1 then p.1 + 1 else p.1,
    (p.2.acceptCompletion a none now).2)

theorem acceptSynced_eq (q : Queue α) (now : Nat) :
    q.acceptSynced now = q.actuators.foldl (offerNext now) (0, q) := rfl

theorem foldl_offerNext (now : Nat) (as : List ActuatorId) (n : Nat) (q : Queue α)
    (once : (q.timed.map (·.seq)).Nodup) : ∃ ms bs,
      q.Moved (as.foldl (offerNext now) (n, q)).2 ms ∧
      (as.foldl (offerNext now) (n, q)).1 = n + ms.length ∧ bs.Sublist as ∧
      List.Forall₂ (fun b e => ∃ x, Scheduled.accept x b none now = (true, e.item)) bs ms := by
  induction as generalizing n q with
  | nil => exact ⟨[], [], .of_keys rfl rfl, rfl, .refl _, .nil⟩
  | cons a as ih =>
    obtain ⟨ms, hms, hlength, haccepts⟩ := (q.answers a none now).moved once
    have honce : ((q.acceptCompletion a none now).2.timed.map (·.seq)).Nodup := by
      rw [Entry.map_seq_eq] at once ⊢
      exact (hms.keys.map _).nodup once
    obtain ⟨ns, bs, hns, hcount, hbs, haccept⟩ :=
      ih (if (q.acceptCompletion a none now).1 then n + 1 else n) _ honce
    refine ⟨ms ++ ns, if (q.acceptCompletion a none now).1 then a :: bs else bs,
      hms.trans hns, ?_, ?_, ?_⟩
    · rw [List.foldl_cons, offerNext, hcount, List.length_append, hlength]
      cases (q.acceptCompletion a none now).1 <;> simp [Nat.add_assoc]
    · split
      · exact hbs.cons_cons a
      · exact hbs.cons a
    · cases hok : (q.acceptCompletion a none now).1 with
      | false =>
        rw [hok] at hlength
        obtain rfl := List.length_eq_zero_iff.mp hlength
        exact haccept
      | true =>
        rw [hok] at hlength
        obtain ⟨e, rfl⟩ := List.length_eq_one_iff.mp hlength
        exact .cons (haccepts e List.mem_cons_self) haccept

end

/-! ## Everything that is done with a queue -/

/-- Something that is done with a queue. -/
inductive Use (α : Type)
  | push (x : α)
  | extend (xs : List α)
  | popDue (now : Nat)
  | acceptCompletion (a : ActuatorId) (step : Option Nat) (now : Nat)
  | acceptSynced (now : Nat)
  | drainReversed
  | drainInOrder

/-- A queue, with what went into it and came out of it since it was empty. -/
structure History (α : Type) where
  queue : Queue α := {}
  /-- What was inserted, in order. -/
  pushed : List α := []
  /-- What was taken out, in order. -/
  taken : List α := []
  /-- The numbers of the entries that reports released, in order. -/
  releases : List Nat := []

namespace History

/-- A report leaves another queue. -/
def report (h : History α) (q : Queue α) : History α :=
  { h with
    queue := q
    releases := h.releases ++ (q.released.drop h.queue.released.length).map (·.seq) }

theorem report_self (h : History α) : h.report h.queue = h := by
  rw [report, List.drop_length, List.map_nil, List.append_nil]

/-- Two reports in a row are like one. -/
theorem report_report {h : History α} {q q' : Queue α} (hq : h.queue.released <+: q.released)
    (hq' : q.released <+: q'.released) : (h.report q).report q' = h.report q' := by
  obtain ⟨ms, hms⟩ := hq
  obtain ⟨ns, hns⟩ := hq'
  unfold report
  rw [← hns, List.drop_left, ← hms, List.drop_left, List.append_assoc h.queue.released,
    List.drop_left, List.append_assoc, List.map_append]

section
variable [Scheduled α]

def use (h : History α) : Use α → History α
  | .push x => { h with queue := h.queue.push x, pushed := h.pushed ++ [x] }
  | .extend xs => { h with queue := h.queue.extend xs, pushed := h.pushed ++ xs }
  | .popDue now =>
    match h.queue.popDue now with
    | none => h
    | some (x, queue) => { h with queue, taken := h.taken ++ [x] }
  | .acceptCompletion a step now => h.report (h.queue.acceptCompletion a step now).2
  | .acceptSynced now => h.report (h.queue.acceptSynced now).2
  | .drainReversed =>
    let (xs, queue) := h.queue.drainReversed
    { h with queue, taken := h.taken ++ xs }
  | .drainInOrder =>
    let (xs, queue) := h.queue.drainInOrder
    { h with queue, taken := h.taken ++ xs }

/-- A queue that was empty at first, after everything that was done with it. -/
def after (us : List (Use α)) : History α := us.foldl use {}

/-- An entry is what became of the item that was inserted under its number. -/
def Stems (h : History α) (e : Entry α) : Prop :=
  ∃ x, h.pushed[e.seq]? = some x ∧ Scheduled.start x = e.start ∧ Scheduled.Becomes x e.item

/-- The books of a queue balance, and its entries stand in the order in which they run. -/
structure Sound (h : History α) : Prop where
  /-- What was taken out and what is queued bear all numbers that were given out, each once. -/
  account : ∃ gone : List (Entry α), gone.map (·.item) = h.taken ∧
    ((gone ++ h.queue.entries).map (·.seq)).Perm (List.range h.pushed.length) ∧
    ∀ e ∈ gone ++ h.queue.entries, h.Stems e
  nextSeq : h.queue.nextSeq = h.pushed.length
  sorted : h.queue.timed.Pairwise Entry.Precedes
  accepted : ∀ e ∈ h.queue.released,
    ∃ x, h.pushed[e.seq]? = some x ∧ Scheduled.Accepted x e.item
  released : (h.queue.released.map (·.seq)).Sublist h.releases
  waiting : ∀ e ∈ h.queue.timed, e.seq ∉ h.releases
  releases : h.releases.Nodup
  given : ∀ n ∈ h.releases, n < h.pushed.length

namespace Sound

variable {h : History α}

theorem empty : Sound ({} : History α) where
  account := ⟨[], rfl, .refl _, fun _ he => (List.not_mem_nil he).elim⟩
  nextSeq := rfl
  sorted := .nil
  accepted _ he := (List.not_mem_nil he).elim
  released := .refl _
  waiting _ he := (List.not_mem_nil he).elim
  releases := .nil
  given _ hn := (List.not_mem_nil hn).elim

theorem nodup (H : h.Sound) : (h.queue.entries.map (·.seq)).Nodup := by
  obtain ⟨gone, -, hperm, -⟩ := H.account
  have hall := hperm.nodup_iff.mpr List.nodup_range
  rw [List.map_append] at hall
  exact (List.nodup_append'.mp hall).2.1

theorem nodup_timed (H : h.Sound) : (h.queue.timed.map (·.seq)).Nodup := by
  have hall := H.nodup
  rw [entries, List.map_append] at hall
  exact (List.nodup_append'.mp hall).2.1

theorem stems (H : h.Sound) {e : Entry α} (he : e ∈ h.queue.entries) : h.Stems e := by
  obtain ⟨gone, -, -, hstems⟩ := H.account
  exact hstems e (List.mem_append_right gone he)

theorem seq_lt (H : h.Sound) {e : Entry α} (he : e ∈ h.queue.entries) :
    e.seq < h.pushed.length := by
  obtain ⟨x, hx, -⟩ := H.stems he
  exact (List.getElem?_eq_some_iff.mp hx).1

/-- One more item is inserted. -/
theorem push (H : h.Sound) (x : α) : (h.use (.push x)).Sound := by
  have hpushed : ∀ {n : Nat} {y : α}, h.pushed[n]? = some y → (h.pushed ++ [x])[n]? = some y :=
    fun hy => by rw [List.getElem?_append_left (List.getElem?_eq_some_iff.mp hy).1, hy]
  have hplace := place_perm ⟨h.queue.nextSeq, Scheduled.start x, x⟩ h.queue.timed
  have hentries : (h.queue.push x).entries.Perm
      (⟨h.queue.nextSeq, Scheduled.start x, x⟩ :: h.queue.entries) :=
    (hplace.append_left _).trans List.perm_middle
  obtain ⟨gone, htaken, hnumbers, hstems⟩ := H.account
  refine {
    account := ⟨gone, htaken, ?numbers, fun e he => ?stems⟩
    nextSeq := ?nextSeq
    sorted := pairwise_place_last _ H.sorted fun f hf => ?sorted
    accepted := fun e he => ?accepted
    released := H.released
    waiting := fun e he => ?waiting
    releases := H.releases
    given := fun n hn => ?given }
  case numbers =>
    show ((gone ++ (h.queue.push x).entries).map (·.seq)).Perm (List.range (h.pushed ++ [x]).length)
    rw [List.length_append, List.length_singleton, List.range_succ, ← H.nextSeq]
    refine (((hentries.append_left gone).trans List.perm_middle).map _).trans ?_
    rw [List.map_cons]
    refine (List.Perm.cons _ (H.nextSeq ▸ hnumbers)).trans ?_
    exact (List.perm_append_singleton _ _).symm
  case stems =>
    rcases List.mem_cons.mp (((hentries.append_left gone).trans List.perm_middle).mem_iff.mp he)
      with rfl | he
    · refine ⟨x, ?_, rfl, .refl⟩
      show (h.pushed ++ [x])[h.queue.nextSeq]? = some x
      rw [H.nextSeq, List.getElem?_append_right (Nat.le_refl _), Nat.sub_self]
      rfl
    · obtain ⟨y, hy, hstart, hbecomes⟩ := hstems e he
      exact ⟨y, hpushed hy, hstart, hbecomes⟩
  case nextSeq =>
    show h.queue.nextSeq + 1 = (h.pushed ++ [x]).length
    rw [H.nextSeq, List.length_append, List.length_singleton]
  case sorted =>
    show f.seq < h.queue.nextSeq
    rw [H.nextSeq]
    exact H.seq_lt (List.mem_append_right _ hf)
  case accepted =>
    obtain ⟨y, hy, haccepted⟩ := H.accepted e he
    exact ⟨y, hpushed hy, haccepted⟩
  case waiting =>
    rcases List.mem_cons.mp (hplace.mem_iff.mp he) with rfl | he
    · exact fun hn => Nat.lt_irrefl _ (H.nextSeq ▸ H.given _ hn)
    · exact H.waiting e he
  case given =>
    show n < (h.pushed ++ [x]).length
    rw [List.length_append]
    exact Nat.lt_add_right _ (H.given n hn)

/-- Entries are taken out. -/
theorem remove (H : h.Sound) {q : Queue α} (es : List (Entry α))
    (entries : (es ++ q.entries).Perm h.queue.entries) (timed : q.timed.Sublist h.queue.timed)
    (released : q.released.Sublist h.queue.released) (nextSeq : q.nextSeq = h.queue.nextSeq) :
    Sound { h with queue := q, taken := h.taken ++ es.map (·.item) } := by
  obtain ⟨gone, htaken, hnumbers, hstems⟩ := H.account
  have hperm : (gone ++ es ++ q.entries).Perm (gone ++ h.queue.entries) := by
    rw [List.append_assoc]
    exact entries.append_left gone
  exact {
    account := ⟨gone ++ es, by rw [List.map_append, htaken], (hperm.map _).trans hnumbers,
      fun e he => hstems e (hperm.mem_iff.mp he)⟩
    nextSeq := nextSeq.trans H.nextSeq
    sorted := H.sorted.sublist timed
    accepted := fun e he => H.accepted e (released.subset he)
    released := (released.map _).trans H.released
    waiting := fun e he => H.waiting e (timed.subset he)
    releases := H.releases
    given := H.given }

theorem popDue (H : h.Sound) (now : Nat) : (h.use (.popDue now)).Sound := by
  unfold History.use
  dsimp only
  split
  · exact H
  · rename_i x q hpop
    unfold Queue.popDue at hpop
    split at hpop
    · rename_i ts e es hr
      cases hpop
      refine H.remove [e] ?_ (.refl _) ?_ rfl
      · rw [entries, entries, hr]
        exact .refl _
      · rw [hr]
        exact List.sublist_cons_self e es
    · cases hpop
    · rename_i e es hr ht
      split at hpop
      · cases hpop
      · split at hpop
        · cases hpop
          refine H.remove [e] ?_ ?_ (.refl _) rfl
          · rw [entries, entries, hr, ht]
            exact .refl _
          · rw [ht]
            exact List.sublist_cons_self e es
        · cases hpop

/-- Everything is taken out. -/
theorem drain (H : h.Sound) {es : List (Entry α)} (all : es.Perm h.queue.entries) :
    Sound { h with
      queue := { h.queue with timed := [], released := [] }
      taken := h.taken ++ es.map (·.item) } :=
  have hall : (es ++ ([] : List (Entry α))).Perm h.queue.entries := by rwa [List.append_nil]
  H.remove es hall (List.nil_sublist _) (List.nil_sublist _) rfl

theorem acceptCompletion (H : h.Sound) (a : ActuatorId) (step : Option Nat) (now : Nat) :
    (h.use (.acceptCompletion a step now)).Sound := by
  have A := h.queue.answers a step now
  show (h.report (h.queue.acceptCompletion a step now).2).Sound
  generalize (h.queue.acceptCompletion a step now).1 = ok at A
  generalize (h.queue.acceptCompletion a step now).2 = q at A
  obtain ⟨ms, hms, -, -⟩ := A.moved H.nodup_timed
  obtain ⟨gone, htaken, hnumbers, hstems⟩ := H.account
  have hseqs : (q.entries.map (·.seq)).Perm (h.queue.entries.map (·.seq)) := by
    rw [Entry.map_seq_eq, Entry.map_seq_eq]
    exact A.keys.map _
  have hreleases : (h.report q).releases = h.releases ++ ms.map (·.seq) := by
    rw [report, hms.released, List.drop_left]
  refine {
    account := ⟨gone, htaken, ?numbers, fun e he => ?stems⟩
    nextSeq := A.nextSeq.trans H.nextSeq
    sorted := Entry.pairwise_of_keys hms.keys H.sorted
    accepted := fun e he => ?accepted
    released := ?released
    waiting := fun e he => ?waiting
    releases := ?releases
    given := fun n hn => ?given }
  case numbers =>
    show ((gone ++ q.entries).map (·.seq)).Perm _
    rw [List.map_append]
    exact (hseqs.append_left _).trans (by rwa [List.map_append] at hnumbers)
  case stems =>
    rcases List.mem_append.mp he with he | he
    · exact hstems e (List.mem_append_left _ he)
    · rcases A.entries e he with he | ⟨f, hf, rfl⟩
      · exact H.stems he
      · obtain ⟨x, hx, hstart, hbecomes⟩ := H.stems hf
        exact ⟨x, hx, hstart, hbecomes.offered a step now⟩
  case accepted =>
    rcases A.released e he with he | ⟨f, hf, hok, rfl⟩
    · exact H.accepted e he
    · obtain ⟨x, hx, -, hbecomes⟩ := H.stems (List.mem_append_right _ hf)
      exact ⟨x, hx, f.item, a, step, now, hbecomes, Prod.ext hok rfl⟩
  case released =>
    rw [hreleases]
    show (q.released.map (·.seq)).Sublist _
    rw [hms.released, List.map_append]
    exact H.released.append (.refl _)
  case waiting =>
    obtain ⟨⟨f, hf, hseq⟩, hstays⟩ := hms.mem_stays he
    rw [hreleases]
    exact fun hn => (List.mem_append.mp hn).elim (hseq ▸ H.waiting f hf) hstays
  case releases =>
    rw [hreleases]
    refine List.nodup_append'.mpr ⟨H.releases, hms.once, fun n hn hm => ?_⟩
    obtain ⟨f, hf, rfl⟩ := hms.mem_waited hm
    exact H.waiting f hf hn
  case given =>
    rw [hreleases] at hn
    rcases List.mem_append.mp hn with hn | hn
    · exact H.given n hn
    · obtain ⟨f, hf, rfl⟩ := hms.mem_waited hn
      exact H.seq_lt (List.mem_append_right _ hf)

/-- What each report to one actuator leaves sound, a report to the whole group leaves sound. -/
theorem acceptSynced (H : h.Sound) (now : Nat) : (h.use (.acceptSynced now)).Sound := by
  suffices hfold : ∀ (as : List ActuatorId) (n : Nat) (q : Queue α), (h.report q).Sound →
      h.queue.released <+: q.released → (h.report (as.foldl (offerNext now) (n, q)).2).Sound by
    refine hfold h.queue.actuators 0 h.queue ?_ List.prefix_rfl
    rwa [report_self]
  intro as
  induction as with
  | nil => exact fun _ _ hq _ => hq
  | cons a as ih =>
    intro n q hq hfirst
    have hnext := (q.answers a none now).isPrefix
    refine ih _ _ ?_ (hfirst.trans hnext)
    rw [← report_report hfirst hnext]
    exact hq.acceptCompletion a none now

theorem extend (H : h.Sound) (xs : List α) : (h.use (.extend xs)).Sound := by
  induction xs generalizing h with
  | nil =>
    have hnil : h.use (.extend []) = h := by
      rw [use, List.append_nil]
      rfl
    rwa [hnil]
  | cons x xs ih =>
    have hcons : h.use (.extend (x :: xs)) = (h.use (.push x)).use (.extend xs) := by
      rw [use, use, use, List.append_assoc]
      rfl
    rw [hcons]
    exact ih (H.push x)

theorem use (H : h.Sound) (u : Use α) : (h.use u).Sound := by
  cases u with
  | push x => exact H.push x
  | extend xs => exact H.extend xs
  | popDue now => exact H.popDue now
  | acceptCompletion a step now => exact H.acceptCompletion a step now
  | acceptSynced now => exact H.acceptSynced now
  | drainReversed => exact H.drain (List.mergeSort_perm _ _)
  | drainInOrder => exact H.drain (.refl _)

end Sound

/-- Whatever was done with a queue, its books balance. -/
theorem sound_after (us : List (Use α)) : (after us).Sound := by
  suffices H : ∀ h : History α, h.Sound → (us.foldl History.use h).Sound from H {} .empty
  induction us with
  | nil => exact fun _ h => h
  | cons u us ih => exact fun h H => ih (h.use u) (H.use u)

namespace Sound

variable {h : History α}

/-- What was inserted, each item as what became of it, is what was taken out and what is queued. -/
theorem exists_perm (H : h.Sound) : ∃ ys, List.Forall₂ Scheduled.Becomes h.pushed ys ∧
    ys.Perm (h.taken ++ h.queue.items) := by
  obtain ⟨gone, htaken, hnumbers, hstems⟩ := H.account
  -- Everything in the order of its numbers.
  obtain ⟨zs, hzs, hperm⟩ := List.perm_comp_forall₂ (r := fun n (e : Entry α) => e.seq = n)
    hnumbers.symm (List.forall₂_map_left_iff.mpr (List.forall₂_same.mpr fun _ _ => rfl))
  have hlength : h.pushed.length = zs.length := by
    rw [← hzs.length_eq, List.length_range]
  refine ⟨zs.map (·.item), List.forall₂_iff_get.mpr ⟨?_, fun i hi hi' => ?_⟩, ?_⟩
  · rw [List.length_map, hlength]
  · have hzi : i < zs.length := hlength ▸ hi
    obtain ⟨x, hx, -, hbecomes⟩ := hstems _ (hperm.mem_iff.mp (List.getElem_mem hzi))
    have hseq : (zs[i]).seq = i := by
      have hi'' := hzs.get (i := i) (by simpa using hi) hzi
      simpa using hi''
    rw [hseq] at hx
    obtain ⟨_, rfl⟩ := List.getElem?_eq_some_iff.mp hx
    simpa using hbecomes
  · rw [← htaken]
    have hitems : h.queue.items = h.queue.entries.map (·.item) := rfl
    rw [hitems, ← List.map_append]
    exact hperm.map _

theorem length (H : h.Sound) : h.taken.length + h.queue.length = h.pushed.length := by
  obtain ⟨gone, htaken, hnumbers, -⟩ := H.account
  have hlength := hnumbers.length_eq
  rw [List.length_map, List.length_append, List.length_range] at hlength
  rw [← htaken, List.length_map, length_eq, hlength]

end Sound

end

end History

/-! ## The books -/

theorem nodup_actuators [Scheduled α] (q : Queue α) : q.actuators.Nodup :=
  List.nodup_mergeSort.mpr (List.nodup_eraseDups _)

theorem actuator_of_accept {x y : Step R} {a : ActuatorId} {step : Option Nat} {now : Nat}
    (h : Scheduled.accept x a step now = (true, y)) : Scheduled.actuator? y = some a := by
  rcases accept_cases x a step now with hacc | ⟨l, task, i, rfl, -, ha, -, hacc⟩
  · rw [hacc] at h
    cases h
  · obtain rfl : _ = y := congrArg Prod.snd (hacc.symm.trans h)
    exact congrArg some ha

namespace History

/-- The books of the queue of a vibration. -/
structure Balances (h : History (Step R)) : Prop where
  /-- What was inserted, each step as what reports made of it, was taken out or is still there. -/
  items : ∃ ys, List.Forall₂ Scheduled.Becomes h.pushed ys ∧ ys.Perm (h.taken ++ h.queue.items)
  length : h.taken.length + h.queue.length = h.pushed.length
  isEmpty : h.queue.isEmpty = true ↔ h.taken.length = h.pushed.length
  /-- An entry is filed under the place of its insertion and the start of what was inserted. -/
  filed : ∀ e ∈ h.queue.entries, h.Stems e
  /-- No two entries are filed under the same number. -/
  numbers : (h.queue.entries.map (·.seq)).Nodup
  /-- A report moves one entry if it is accepted, and else none. -/
  acceptCompletion a step now : ∃ ms, h.queue.Moved (h.queue.acceptCompletion a step now).2 ms ∧
    ms.length = (h.queue.acceptCompletion a step now).1.toNat
  /-- A report to the whole group moves as many entries as it says, no two of one actuator. -/
  acceptSynced now : ∃ ms, h.queue.Moved (h.queue.acceptSynced now).2 ms ∧
    ms.length = (h.queue.acceptSynced now).1 ∧ (ms.map (Scheduled.actuator? ·.item)).Nodup
  /-- All entries come out, the last inserted first. -/
  drainReversed : ∃ es : List (Entry (Step R)), es.Perm h.queue.entries ∧
    es.Pairwise (fun e f => f.seq < e.seq) ∧
    h.queue.drainReversed.1 = es.map (·.item) ∧ h.queue.drainReversed.2.isEmpty = true
  /-- All entries come out, those that were released in the order of their release before those
  that wait, in the order in which they wait. -/
  drainInOrder : ∃ es fs : List (Entry (Step R)), (es ++ fs).Perm h.queue.entries ∧
    (es.map (·.seq)).Sublist h.releases ∧ (∀ f ∈ fs, f.seq ∉ h.releases) ∧
    fs.Pairwise Entry.Precedes ∧ h.queue.drainInOrder.1 = (es ++ fs).map (·.item) ∧
    h.queue.drainInOrder.2.isEmpty = true

namespace Sound

variable {h : History (Step R)}

theorem acceptSynced_moves (H : h.Sound) (now : Nat) :
    ∃ ms, h.queue.Moved (h.queue.acceptSynced now).2 ms ∧
      ms.length = (h.queue.acceptSynced now).1 ∧
      (ms.map (Scheduled.actuator? ·.item)).Nodup := by
  obtain ⟨ms, bs, hms, hcount, hbs, haccept⟩ :=
    foldl_offerNext now h.queue.actuators 0 h.queue H.nodup_timed
  have hactuators : ms.map (Scheduled.actuator? ·.item) = bs.map some := by
    clear hms hcount hbs
    induction haccept with
    | nil => rfl
    | cons hb _ ih =>
      obtain ⟨x, hx⟩ := hb
      rw [List.map_cons, List.map_cons, ih, actuator_of_accept hx]
  refine ⟨ms, hms, ?_, ?_⟩
  · rw [acceptSynced_eq, hcount, Nat.zero_add]
  · rw [hactuators]
    exact ((nodup_actuators h.queue).sublist hbs).map (fun _ _ => Option.some.inj)

theorem drainReversed_sorted (H : h.Sound) : ∃ es : List (Entry (Step R)), es.Perm h.queue.entries ∧
    es.Pairwise (fun e f => f.seq < e.seq) ∧ h.queue.drainReversed.1 = es.map (·.item) ∧
    h.queue.drainReversed.2.isEmpty = true := by
  let le : Entry (Step R) → Entry (Step R) → Bool := fun a b => decide (b.seq ≤ a.seq)
  have hperm : (h.queue.entries.mergeSort le).Perm h.queue.entries := List.mergeSort_perm _ _
  have hle : (h.queue.entries.mergeSort le).Pairwise fun e f => le e f = true :=
    List.pairwise_mergeSort (by simp only [le, decide_eq_true_eq]; omega)
      (by simp only [le, Bool.or_eq_true, decide_eq_true_eq]; omega) _
  have hne : (h.queue.entries.mergeSort le).Pairwise fun e f => e.seq ≠ f.seq :=
    List.pairwise_map.mp ((hperm.map _).nodup_iff.mpr H.nodup)
  refine ⟨h.queue.entries.mergeSort le, hperm, (hle.and hne).imp fun hef => ?_, rfl, rfl⟩
  exact Nat.lt_of_le_of_ne (of_decide_eq_true hef.1) hef.2.symm

theorem balances (H : h.Sound) : h.Balances where
  items := H.exists_perm
  length := H.length
  isEmpty := by
    have hlength := H.length
    rw [isEmpty_iff_length]
    omega
  filed _ := H.stems
  numbers := H.nodup
  acceptCompletion a step now := by
    obtain ⟨ms, hms, hlength, -⟩ := (h.queue.answers a step now).moved H.nodup_timed
    exact ⟨ms, hms, hlength⟩
  acceptSynced := H.acceptSynced_moves
  drainReversed := H.drainReversed_sorted
  drainInOrder := ⟨h.queue.released, h.queue.timed, .refl _, H.released, H.waiting, H.sorted,
    rfl, rfl⟩

end Sound

/-- Nothing that was inserted into a queue is lost or doubled, whatever is done with it. -/
theorem balances_after (us : List (Use (Step R))) : (after us).Balances := (sound_after us).balances

end History
end Queue
end Haptics
