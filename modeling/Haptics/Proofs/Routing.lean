import Mathlib.Data.List.Induction
import Haptics.Proofs.Strays

/-!
# Which callbacks are heard

What is read from the inbox that one attach opened is settled by what was done with the bridge
before (`Bridge.Reaches`): a callback is heard there if it is for the vibration of that attach, the
attach is still the current one, somebody reads the inbox, and there is room. Callbacks that reach
an inbox are read in the order in which they came, each once, and no callback touches any other
inbox (`Bridge.Routes`).
-/

namespace Haptics
namespace Bridge

/-- Takes some events out of an inbox, as many as are asked for if there are that many. -/
def receive (b : Bridge) (i n : Nat) : List Event × Bridge :=
  ((b.waiting i).take n,
    { b with inboxes := b.inboxes.modify i fun x => { x with waiting := x.waiting.drop n } })

/-- To empty an inbox is to take out as many events as wait in it. -/
theorem read_eq (b : Bridge) (i : Nat) : b.read i = b.receive i (b.waiting i).length := by
  unfold read receive
  rw [List.take_length]
  refine congrArg (fun inboxes => (b.waiting i, { b with inboxes })) ?_
  refine Array.ext_getElem? fun k => ?_
  rw [Array.getElem?_modify, Array.getElem?_modify]
  split
  · rename_i hik
    subst hik
    cases hx : b.inboxes[i]? with
    | none => rfl
    | some x =>
      rw [waiting_of_get hx]
      simp
  · rfl

/-! ## Everything that is done with a bridge -/

/-- Something that is done with a bridge. -/
inductive Use
  | attach (vibration capacity : Nat)
  | detach (vibration : Nat)
  | callback (e : Event)
  /-- The reader of the inbox of an attach takes some events. -/
  | receive (attach n : Nat)
  /-- The reader of the inbox of an attach takes all events. -/
  | read (attach : Nat)
  /-- The reader of the inbox of an attach goes away. -/
  | drop (attach : Nat)
deriving DecidableEq

/-- A bridge, with what was read from each of its inboxes. -/
structure History where
  bridge : Bridge := {}
  heard : Nat → List Event := fun _ => []

namespace History

/-- Somebody read an inbox. -/
def hear (h : History) (i : Nat) (r : List Event × Bridge) : History where
  bridge := r.2
  heard := fun j => if j = i then h.heard j ++ r.1 else h.heard j

def use (h : History) : Use → History
  | .attach v capacity => { h with bridge := h.bridge.attach v capacity }
  | .detach v => { h with bridge := h.bridge.detach v }
  | .callback e => { h with bridge := h.bridge.post e.vibration e }
  | .receive i n => h.hear i (h.bridge.receive i n)
  | .read i => h.hear i (h.bridge.read i)
  | .drop i => { h with bridge := h.bridge.abandon i }

end History

/-- A new bridge, after everything that was done with it. -/
def after (us : List Use) : History := us.foldl History.use {}

theorem after_concat (us : List Use) (u : Use) : after (us ++ [u]) = (after us).use u := by
  rw [after, List.foldl_append]
  rfl

/-! ## Who is to hear what -/

def Use.isAttach : Use → Bool
  | attach _ _ => true
  | detach _ | callback _ | receive _ _ | read _ | drop _ => false

/-- How many inboxes were opened. -/
def attaches (us : List Use) : Nat := us.countP Use.isAttach

/-- The attach number `k` and what was done since. -/
def Opened (k v capacity : Nat) (since us : List Use) : Prop :=
  ∃ before, us = before ++ .attach v capacity :: since ∧ attaches before = k

/-- The attach number `k` was for `v`, and neither replaced nor detached since. -/
def Current (k v : Nat) (us : List Use) : Prop :=
  ∃ capacity since, Opened k v capacity since us ∧ since.all (!·.isAttach) = true ∧
    .detach v ∉ since

/-- An event is heard by the reader of the attach number `k`: the attach is the current one and for
the vibration of the event, its reader is there, and there is room. -/
def Reaches (k : Nat) (e : Event) (us : List Use) : Prop :=
  ∃ capacity since, Opened k e.vibration capacity since us ∧ since.all (!·.isAttach) = true ∧
    .detach e.vibration ∉ since ∧ .drop k ∉ since ∧
    ((after us).bridge.waiting k).length < max capacity 1

/-- The reader of the attach number `k` went away. -/
def Dropped (k : Nat) (us : List Use) : Prop :=
  ∃ v capacity since, Opened k v capacity since us ∧ .drop k ∈ since

/-- The callback at a place is heard by the reader of the attach number `k`. -/
def Delivers (k : Nat) (us : List Use) (p : Nat) (e : Event) : Prop :=
  us[p]? = some (.callback e) ∧ Reaches k e (us.take p)

section
variable {us since : List Use} {u : Use} {k v capacity : Nat} {e : Event}

theorem opened_concat : Opened k v capacity since (us ++ [u]) ↔
    (u = .attach v capacity ∧ since = [] ∧ attaches us = k) ∨
      ∃ rest, since = rest ++ [u] ∧ Opened k v capacity rest us := by
  constructor
  · rintro ⟨before, heq, hk⟩
    rcases List.eq_nil_or_concat since with rfl | ⟨rest, w, rfl⟩
    · obtain ⟨rfl, hu⟩ := List.append_inj' heq rfl
      exact .inl ⟨(List.cons.inj hu).1, rfl, hk⟩
    · rw [List.concat_eq_append] at heq ⊢
      rw [← List.cons_append, ← List.append_assoc] at heq
      obtain ⟨rfl, hu⟩ := List.append_inj' heq rfl
      obtain ⟨rfl, -⟩ := List.cons.inj hu
      exact .inr ⟨rest, rfl, before, rfl, hk⟩
  · rintro (⟨rfl, rfl, hk⟩ | ⟨rest, rfl, before, rfl, hk⟩)
    · exact ⟨us, rfl, hk⟩
    · exact ⟨before, by simp, hk⟩

theorem attaches_concat : attaches (us ++ [u]) = attaches us + if u.isAttach then 1 else 0 := by
  rw [attaches, List.countP_append, List.countP_singleton]
  rfl

theorem Opened.lt (h : Opened k v capacity since us) : k < attaches us := by
  obtain ⟨before, rfl, rfl⟩ := h
  rw [attaches, attaches, List.countP_append, List.countP_cons_of_pos rfl]
  omega

theorem current_attach {w c : Nat} :
    Current k v (us ++ [.attach w c]) ↔ k = attaches us ∧ v = w := by
  constructor
  · rintro ⟨capacity, since, hopened, hlast, -⟩
    rcases opened_concat.mp hopened with ⟨hu, -, hk⟩ | ⟨rest, rfl, -⟩
    · cases hu
      exact ⟨hk.symm, rfl⟩
    · simp [Use.isAttach] at hlast
  · rintro ⟨rfl, rfl⟩
    exact ⟨c, [], opened_concat.mpr (.inl ⟨rfl, rfl, rfl⟩), rfl, List.not_mem_nil⟩

theorem current_concat (hu : u.isAttach = false) :
    Current k v (us ++ [u]) ↔ Current k v us ∧ u ≠ .detach v := by
  constructor
  · rintro ⟨capacity, since, hopened, hlast, hdetach⟩
    rcases opened_concat.mp hopened with ⟨rfl, -⟩ | ⟨rest, rfl, hrest⟩
    · cases hu
    · rw [List.all_append, Bool.and_eq_true] at hlast
      rw [List.mem_append, not_or, List.mem_singleton] at hdetach
      exact ⟨⟨capacity, rest, hrest, hlast.1, hdetach.1⟩, Ne.symm hdetach.2⟩
  · rintro ⟨⟨capacity, rest, hopened, hlast, hdetach⟩, hne⟩
    refine ⟨capacity, rest ++ [u], opened_concat.mpr (.inr ⟨rest, rfl, hopened⟩), ?_, ?_⟩
    · simp [hlast, hu]
    · rw [List.mem_append, not_or, List.mem_singleton]
      exact ⟨hdetach, Ne.symm hne⟩

theorem delivers_concat {p : Nat} : Delivers k (us ++ [u]) p e ↔
    Delivers k us p e ∨ p = us.length ∧ u = .callback e ∧ Reaches k e us := by
  unfold Delivers
  rcases Nat.lt_trichotomy p us.length with hp | rfl | hp
  · rw [List.getElem?_append_left hp, List.take_append_of_le_length (Nat.le_of_lt hp)]
    simp [Nat.ne_of_lt hp]
  · simp
  · have hnone : (us ++ [u])[p]? = none := List.getElem?_eq_none (by simp; omega)
    have hnone' : us[p]? = none := List.getElem?_eq_none (Nat.le_of_lt hp)
    simp [hnone, hnone', Nat.ne_of_gt hp]

theorem exists_opened (h : k < attaches us) : ∃ v capacity since, Opened k v capacity since us := by
  induction us using List.reverseRecOn with
  | nil => cases h
  | append_singleton us u ih =>
    have hold : k < attaches us → ∃ v capacity since, Opened k v capacity since (us ++ [u]) := by
      intro hlt
      obtain ⟨v, capacity, since, hopened⟩ := ih hlt
      exact ⟨v, capacity, since ++ [u], opened_concat.mpr (.inr ⟨since, rfl, hopened⟩)⟩
    rw [attaches_concat] at h
    cases u with
    | attach v capacity =>
      rcases Nat.lt_succ_iff_lt_or_eq.mp h with hlt | rfl
      · exact hold hlt
      · exact ⟨v, capacity, [], opened_concat.mpr (.inl ⟨rfl, rfl, rfl⟩)⟩
    | _ => exact hold h

theorem dropped_concat :
    Dropped k (us ++ [u]) ↔ Dropped k us ∨ u = .drop k ∧ k < attaches us := by
  constructor
  · rintro ⟨v, capacity, since, hopened, hdrop⟩
    rcases opened_concat.mp hopened with ⟨-, rfl, -⟩ | ⟨rest, rfl, hrest⟩
    · cases hdrop
    · rcases List.mem_append.mp hdrop with hdrop | hdrop
      · exact .inl ⟨v, capacity, rest, hrest, hdrop⟩
      · exact .inr ⟨(List.mem_singleton.mp hdrop).symm, hrest.lt⟩
  · rintro (⟨v, capacity, since, hopened, hdrop⟩ | ⟨rfl, hlt⟩)
    · exact ⟨v, capacity, since ++ [u], opened_concat.mpr (.inr ⟨since, rfl, hopened⟩),
        List.mem_append_left _ hdrop⟩
    · obtain ⟨v, capacity, since, hopened⟩ := exists_opened hlt
      exact ⟨v, capacity, since ++ [.drop k], opened_concat.mpr (.inr ⟨since, rfl, hopened⟩),
        List.mem_append_right _ List.mem_cons_self⟩

end

/-! ## The inboxes and the route -/

theorem getElem?_modify_eq (xs : Array Inbox) (i k : Nat) (f : Inbox → Inbox) :
    (xs.modify i f)[k]? = xs[k]?.map (if i = k then f else id) := by
  rw [Array.getElem?_modify]
  split
  · rfl
  · rw [Option.map_id_fun, id]

/-- What becomes of an inbox, but for what waits in it. -/
structure Keeps (k : Nat) (u : Use) (f : Inbox → Inbox) : Prop where
  vibration x : (f x).vibration = x.vibration
  capacity x : (f x).capacity = x.capacity
  hasReader x : (f x).hasReader = true ↔ x.hasReader = true ∧ u ≠ .drop k

namespace Keeps

variable {k : Nat} {u : Use}

theorem rfl (hne : u ≠ .drop k) : Keeps k u id :=
  ⟨fun _ => Eq.refl _, fun _ => Eq.refl _, fun _ => (and_iff_left hne).symm⟩

theorem ite {i : Nat} {f : Inbox → Inbox} (other : i ≠ k → u ≠ .drop k) (own : Keeps k u f) :
    Keeps k u (if i = k then f else id) := by
  split
  · exact own
  · rename_i hik
    exact .rfl (other hik)

theorem receive (hne : u ≠ .drop k) (n : Nat) :
    Keeps k u fun x => { x with waiting := x.waiting.drop n } :=
  ⟨fun _ => Eq.refl _, fun _ => Eq.refl _, fun _ => (and_iff_left hne).symm⟩

theorem post (hne : u ≠ .drop k) (v : Nat) (e : Event) : Keeps k u (·.post v e) where
  vibration x := congrArg (·.vibration) (Inbox.cleared_post x v e)
  capacity x := congrArg (·.capacity) (Inbox.cleared_post x v e)
  hasReader x := by
    have hreader := congrArg (·.hasReader) (Inbox.cleared_post x v e)
    rw [show (x.post v e).hasReader = x.hasReader from hreader]
    exact (and_iff_left hne).symm

theorem abandon : Keeps k (.drop k) fun x => { x with hasReader := false, waiting := [] } :=
  ⟨fun _ => Eq.refl _, fun _ => Eq.refl _, fun _ => by simp⟩

end Keeps

theorem use_read (h : History) (i : Nat) :
    h.use (.read i) = h.use (.receive i (h.bridge.waiting i).length) :=
  congrArg (h.hear i) (read_eq h.bridge i)

/-- Nothing but an attach opens an inbox. -/
theorem exists_keeps (h : History) (k : Nat) {u : Use} (hu : u.isAttach = false) :
    ∃ f, Keeps k u f ∧ (h.use u).bridge.inboxes[k]? = h.bridge.inboxes[k]?.map f := by
  have hid : h.bridge.inboxes[k]? = h.bridge.inboxes[k]?.map id := by
    rw [Option.map_id_fun, id]
  cases u with
  | attach => cases hu
  | detach v =>
    refine ⟨id, .rfl nofun, ?_⟩
    unfold History.use detach
    dsimp only
    split
    · exact hid
    · exact hid
  | callback e =>
    show ∃ f, _ ∧ (h.bridge.post e.vibration e).inboxes[k]? = _
    cases hroute : h.bridge.route with
    | none =>
      rw [post_of_none hroute]
      exact ⟨id, .rfl nofun, hid⟩
    | some i =>
      have hne : Use.callback e ≠ .drop k := nofun
      rw [post_of_route hroute]
      exact ⟨_, .ite (fun _ => hne) (.post hne e.vibration e), getElem?_modify_eq _ i k _⟩
  | receive i n =>
    have hne : Use.receive i n ≠ .drop k := nofun
    exact ⟨_, .ite (fun _ => hne) (.receive hne n), getElem?_modify_eq _ i k _⟩
  | read i =>
    have hne : Use.read i ≠ .drop k := nofun
    rw [use_read]
    exact ⟨_, .ite (fun _ => hne) (.receive hne _), getElem?_modify_eq _ i k _⟩
  | drop i =>
    by_cases hik : i = k
    · subst hik
      refine ⟨_, .abandon, ?_⟩
      show (h.bridge.inboxes.modify i _)[i]? = _
      rw [getElem?_modify_eq, if_pos rfl]
    · refine ⟨id, .rfl fun h => hik (Use.drop.inj h), ?_⟩
      show (h.bridge.inboxes.modify i _)[k]? = _
      rw [getElem?_modify_eq, if_neg hik]

/-- The inboxes are those that were opened, and callbacks go to that of the current attach. -/
structure Kept (us : List Use) : Prop where
  size : (after us).bridge.inboxes.size = attaches us
  inbox {k v capacity since} : Opened k v capacity since us →
    ∃ x, (after us).bridge.inboxes[k]? = some x ∧ x.vibration = v ∧ x.capacity = max capacity 1 ∧
      (x.hasReader = true ↔ .drop k ∉ since)
  route k : (after us).bridge.route = some k ↔ ∃ v, Current k v us

namespace Kept

variable {us : List Use} {k v : Nat}

theorem attached (K : Kept us) :
    (after us).bridge.attached? = some v ↔ ∃ k, Current k v us := by
  have hget : ∀ {k w}, Current k w us → ((after us).bridge.inboxes[k]?).map (·.vibration) =
      some w := by
    rintro k w ⟨capacity, since, hopened, -⟩
    obtain ⟨x, hx, rfl, -⟩ := K.inbox hopened
    rw [hx]
    rfl
  unfold attached?
  constructor
  · intro h
    cases hroute : (after us).bridge.route with
    | none =>
      rw [hroute] at h
      cases h
    | some k =>
      obtain ⟨w, hcurrent⟩ := (K.route k).mp hroute
      rw [hroute] at h
      obtain rfl : w = v := Option.some.inj ((hget hcurrent).symm.trans h)
      exact ⟨k, hcurrent⟩
  · rintro ⟨k, hcurrent⟩
    rw [(K.route k).mpr ⟨v, hcurrent⟩]
    exact hget hcurrent

theorem nil : Kept [] where
  size := rfl
  inbox := by
    rintro k v capacity since ⟨before, heq, -⟩
    simp at heq
  route k := by
    constructor
    · exact nofun
    · rintro ⟨v, capacity, since, ⟨before, heq, -⟩, -⟩
      simp at heq

theorem attach (K : Kept us) (v capacity : Nat) : Kept (us ++ [.attach v capacity]) := by
  have hafter : (after (us ++ [.attach v capacity])).bridge =
      (after us).bridge.attach v capacity := by
    rw [after_concat]
    rfl
  refine ⟨?_, fun {k w c since} hopened => ?_, fun k => ?_⟩
  · rw [hafter, attaches_concat, ← K.size]
    exact Array.size_push _
  · rw [hafter]
    unfold Bridge.attach
    dsimp only
    rw [Array.getElem?_push, K.size]
    rcases opened_concat.mp hopened with ⟨hu, rfl, rfl⟩ | ⟨rest, rfl, hrest⟩
    · cases hu
      exact ⟨_, if_pos rfl, rfl, rfl, by simp⟩
    · obtain ⟨x, hx, hv, hc, hreader⟩ := K.inbox hrest
      exact ⟨x, by rw [if_neg (Nat.ne_of_lt hrest.lt), hx], hv, hc, by simp [hreader]⟩
  · rw [hafter]
    show some _ = some k ↔ _
    simp only [current_attach, K.size]
    constructor
    · rintro ⟨⟩
      exact ⟨v, rfl, rfl⟩
    · rintro ⟨w, rfl, -⟩
      rfl

theorem current_unique (K : Kept us) {w : Nat} (hv : Current k v us) (hw : Current k w us) :
    v = w := by
  obtain ⟨_, _, hopened, -⟩ := hv
  obtain ⟨_, _, hopened', -⟩ := hw
  obtain ⟨x, hx, rfl, -⟩ := K.inbox hopened
  obtain ⟨y, hy, rfl, -⟩ := K.inbox hopened'
  rw [hx] at hy
  cases hy
  rfl

/-- Only a detach closes the road, and only that for its vibration. -/
theorem route_use (K : Kept us) {u : Use} (hu : u.isAttach = false) (k : Nat) :
    ((after us).use u).bridge.route = some k ↔
      (after us).bridge.route = some k ∧ ∀ v, Current k v us → u ≠ .detach v := by
  cases u with
  | attach => cases hu
  | detach v =>
    show ((after us).bridge.detach v).route = some k ↔ _
    unfold Bridge.detach
    split
    · rename_i hattached
      obtain ⟨j, hcurrent⟩ := K.attached.mp hattached
      constructor
      · rintro ⟨⟩
      · rintro ⟨hroute, hnot⟩
        rw [(K.route j).mpr ⟨v, hcurrent⟩] at hroute
        cases hroute
        exact (hnot v hcurrent rfl).elim
    · rename_i hattached
      refine (and_iff_left fun w hcurrent h => ?_).symm
      cases h
      exact hattached (K.attached.mpr ⟨k, hcurrent⟩)
  | callback e =>
    have hroute : ((after us).bridge.post e.vibration e).route = (after us).bridge.route := by
      unfold post
      split <;> rfl
    show ((after us).bridge.post e.vibration e).route = some k ↔ _
    rw [hroute]
    exact (and_iff_left fun _ _ h => by cases h).symm
  | receive | read | drop => exact (and_iff_left fun _ _ h => by cases h).symm

theorem other (K : Kept us) {u : Use} (hu : u.isAttach = false) : Kept (us ++ [u]) := by
  have hafter := after_concat us u
  refine ⟨?_, fun {k v capacity since} hopened => ?_, fun k => ?_⟩
  · have hle : ∀ n, (after (us ++ [u])).bridge.inboxes.size ≤ n ↔
        (after us).bridge.inboxes.size ≤ n := by
      intro n
      obtain ⟨f, -, hf⟩ := exists_keeps (after us) n hu
      rw [← Array.getElem?_eq_none_iff, ← Array.getElem?_eq_none_iff, hafter, hf,
        Option.map_eq_none_iff]
    rw [attaches_concat, hu, ← K.size]
    exact Nat.le_antisymm ((hle _).mpr (Nat.le_refl _)) ((hle _).mp (Nat.le_refl _))
  · rcases opened_concat.mp hopened with ⟨rfl, -⟩ | ⟨rest, rfl, hrest⟩
    · cases hu
    · obtain ⟨x, hx, hv, hc, hreader⟩ := K.inbox hrest
      obtain ⟨f, H, hf⟩ := exists_keeps (after us) k hu
      refine ⟨f x, by rw [hafter, hf, hx]; rfl, (H.vibration x).trans hv,
        (H.capacity x).trans hc, ?_⟩
      rw [H.hasReader, hreader, List.mem_append, not_or, List.mem_singleton]
      exact and_congr_right fun _ => ne_comm
  · rw [hafter, K.route_use hu]
    simp only [current_concat hu]
    constructor
    · rintro ⟨hroute, hnot⟩
      obtain ⟨v, hcurrent⟩ := (K.route k).mp hroute
      exact ⟨v, hcurrent, hnot v hcurrent⟩
    · rintro ⟨v, hcurrent, hne⟩
      exact ⟨(K.route k).mpr ⟨v, hcurrent⟩, fun w hw => K.current_unique hcurrent hw ▸ hne⟩

end Kept

theorem kept (us : List Use) : Kept us := by
  induction us using List.reverseRecOn with
  | nil => exact .nil
  | append_singleton us u ih =>
    cases u with
    | attach v capacity => exact ih.attach v capacity
    | _ => exact ih.other rfl

/-! ## Callbacks -/

section
variable {us : List Use} {k : Nat} {e : Event}

/-- An event is heard if the inbox that callbacks go to takes it. -/
theorem reaches_iff : Reaches k e us ↔ (after us).bridge.route = some k ∧
    ∃ x, (after us).bridge.inboxes[k]? = some x ∧ x.vibration = e.vibration ∧
      x.hasReader = true ∧ x.waiting.length < x.capacity := by
  have K := kept us
  constructor
  · rintro ⟨capacity, since, hopened, hlast, hdetach, hdrop, hroom⟩
    obtain ⟨x, hx, hv, hc, hreader⟩ := K.inbox hopened
    rw [waiting_of_get hx, ← hc] at hroom
    exact ⟨(K.route k).mpr ⟨_, capacity, since, hopened, hlast, hdetach⟩, x, hx, hv,
      hreader.mpr hdrop, hroom⟩
  · rintro ⟨hroute, x, hx, hv, hreader, hroom⟩
    obtain ⟨v, capacity, since, hopened, hlast, hdetach⟩ := (K.route k).mp hroute
    obtain ⟨y, hy, hyv, hyc, hyreader⟩ := K.inbox hopened
    rw [hx] at hy
    cases hy
    obtain rfl : v = e.vibration := hyv.symm.trans hv
    refine ⟨capacity, since, hopened, hlast, hdetach, hyreader.mp hreader, ?_⟩
    rwa [waiting_of_get hx, ← hyc]

/-- A callback that is heard goes behind what waits in its inbox. Nothing else changes. -/
theorem post_of_reaches (h : Reaches k e us) : (after us).bridge.post e.vibration e =
    { (after us).bridge with
      inboxes := (after us).bridge.inboxes.modify k
        fun x => { x with waiting := x.waiting ++ [e] } } := by
  obtain ⟨hroute, x, hx, hv, hreader, hroom⟩ := reaches_iff.mp h
  rw [post_of_route hroute]
  refine congrArg (fun inboxes => { (after us).bridge with inboxes }) ?_
  refine Array.ext_getElem? fun j => ?_
  rw [getElem?_modify_eq, getElem?_modify_eq]
  split
  · rename_i hkj
    subst hkj
    rw [hx]
    exact congrArg some (if_pos ⟨hv, hreader, hroom⟩)
  · rfl

/-- A callback that nobody hears changes nothing. -/
theorem post_of_unheard (h : ∀ k, ¬Reaches k e us) :
    (after us).bridge.post e.vibration e = (after us).bridge := by
  cases hroute : (after us).bridge.route with
  | none => exact post_of_none hroute _ _
  | some k =>
    rw [post_of_route hroute]
    refine congrArg (fun inboxes => { (after us).bridge with inboxes })
      (modify_eq_self fun x hx => ?_)
    exact if_neg fun hpost => h k (reaches_iff.mpr ⟨hroute, x, hx, hpost⟩)

theorem Reaches.not_dropped (h : Reaches k e us) : ¬Dropped k us := by
  obtain ⟨-, x, hx, -, hreader, -⟩ := reaches_iff.mp h
  rintro ⟨v, capacity, since, hopened, hdrop⟩
  obtain ⟨y, hy, -, -, hyreader⟩ := (kept us).inbox hopened
  rw [hx] at hy
  cases hy
  exact hyreader.mp hreader hdrop

theorem Reaches.unique {j : Nat} (hk : Reaches k e us) (hj : Reaches j e us) : k = j :=
  Option.some.inj ((reaches_iff.mp hk).1.symm.trans (reaches_iff.mp hj).1)

variable (us k e) in
theorem waiting_post : ((after us).bridge.post e.vibration e).waiting k =
    (after us).bridge.waiting k ∧ ¬Reaches k e us ∨
    ((after us).bridge.post e.vibration e).waiting k = (after us).bridge.waiting k ++ [e] ∧
      Reaches k e us := by
  by_cases hk : Reaches k e us
  · obtain ⟨-, x, hx, -⟩ := reaches_iff.mp hk
    refine .inr ⟨?_, hk⟩
    rw [post_of_reaches hk, waiting_modify, if_pos rfl, hx, waiting_of_get hx]
    rfl
  · refine .inl ⟨?_, hk⟩
    by_cases hother : ∃ j, Reaches j e us
    · obtain ⟨j, hj⟩ := hother
      rw [post_of_reaches hj, waiting_modify, if_neg]
      rintro rfl
      exact hk hj
    · rw [post_of_unheard (not_exists.mp hother)]

end

/-! ## What a reader hears -/

/-- What the reader of the attach number `k` heard, what still waits and what was lost when the
reader went away are the callbacks that were to be heard there, in order, each once. -/
structure Hears (k : Nat) (us : List Use) (ds : List (Nat × Event)) (lost : List Event) : Prop where
  order : (ds.map (·.1)).Pairwise (· < ·)
  mem p e : (p, e) ∈ ds ↔ Delivers k us p e
  events : ds.map (·.2) = (after us).heard k ++ (after us).bridge.waiting k ++ lost
  lost : lost ≠ [] → Dropped k us
  dropped : Dropped k us → (after us).bridge.waiting k = []

namespace Hears

variable {k : Nat} {us : List Use} {ds : List (Nat × Event)} {lost : List Event}

theorem nil : Hears k [] [] [] where
  order := .nil
  mem p e := by simp [Delivers]
  events := rfl
  lost h := absurd rfl h
  dropped := by
    rintro ⟨v, capacity, since, ⟨before, heq, -⟩, -⟩
    simp at heq

/-- What is done moves events of the inbox on, but brings none. -/
theorem moved (H : Hears k us ds lost) {u : Use} (hu : ∀ e, u ≠ .callback e) (gone : List Event)
    (events : (after us).heard k ++ (after us).bridge.waiting k =
      ((after us).use u).heard k ++ ((after us).use u).bridge.waiting k ++ gone)
    (lost' : gone ≠ [] → Dropped k (us ++ [u]))
    (dropped : Dropped k (us ++ [u]) → ((after us).use u).bridge.waiting k = []) :
    Hears k (us ++ [u]) ds (gone ++ lost) where
  order := H.order
  mem p e := by
    rw [H.mem, delivers_concat]
    exact (or_iff_left fun h => hu e h.2.1).symm
  events := by rw [after_concat, H.events, events, List.append_assoc _ gone]
  lost hne := by
    by_cases hgone : gone = []
    · rw [hgone, List.nil_append] at hne
      exact dropped_concat.mpr (.inl (H.lost hne))
    · exact lost' hgone
  dropped h := by
    rw [after_concat]
    exact dropped h

/-- What is done does not touch the inbox. -/
theorem aside (H : Hears k us ds lost) {u : Use} (hu : ∀ e, u ≠ .callback e)
    (hdrop : u = .drop k → (after us).bridge.waiting k = [])
    (heard : ((after us).use u).heard k = (after us).heard k)
    (waiting : ((after us).use u).bridge.waiting k = (after us).bridge.waiting k) :
    Hears k (us ++ [u]) ds lost := by
  refine H.moved hu [] ?_ (absurd rfl) fun h => ?_
  · rw [heard, waiting, List.append_nil]
  · rw [waiting]
    rcases dropped_concat.mp h with h | ⟨rfl, -⟩
    · exact H.dropped h
    · exact hdrop rfl

theorem callback (H : Hears k us ds lost) (e : Event) :
    ∃ es, Hears k (us ++ [.callback e]) es lost := by
  have hafter := after_concat us (.callback e)
  have hdropped : Dropped k (us ++ [.callback e]) ↔ Dropped k us :=
    dropped_concat.trans (or_iff_left fun h => nomatch h.1)
  rcases waiting_post us k e with ⟨hwaiting, hnot⟩ | ⟨hwaiting, hreaches⟩
  · refine ⟨ds, H.order, fun p f => ?_, ?_, fun h => hdropped.mpr (H.lost h), fun h => ?_⟩
    · rw [H.mem, delivers_concat]
      refine (or_iff_left ?_).symm
      rintro ⟨-, ⟨⟩, h⟩
      exact hnot h
    · rw [hafter, H.events]
      exact congrArg (_ ++ · ++ _) hwaiting.symm
    · rw [hafter]
      exact hwaiting.trans (H.dropped (hdropped.mp h))
  · have hnone := hreaches.not_dropped
    obtain rfl : lost = [] := by
      by_contra hne
      exact hnone (H.lost hne)
    refine ⟨ds ++ [(us.length, e)], ?_, fun p f => ?_, ?_, absurd rfl,
      fun h => (hnone (hdropped.mp h)).elim⟩
    · rw [List.map_append]
      refine List.pairwise_append.mpr ⟨H.order, List.pairwise_singleton _ _, fun p hp q hq => ?_⟩
      obtain ⟨⟨p, f⟩, hmem, rfl⟩ := List.mem_map.mp hp
      rw [List.mem_singleton.mp hq]
      exact (List.getElem?_eq_some_iff.mp ((H.mem p f).mp hmem).1).1
    · rw [delivers_concat, List.mem_append, H.mem, List.mem_singleton]
      refine or_congr_right ⟨?_, ?_⟩
      · rintro ⟨⟩
        exact ⟨rfl, rfl, hreaches⟩
      · rintro ⟨rfl, ⟨⟩, -⟩
        rfl
    · rw [hafter, List.map_append, H.events, List.append_nil, List.append_nil, List.append_assoc]
      exact congrArg (_ ++ ·) hwaiting.symm

/-- Somebody takes events out of an inbox. -/
theorem receive (H : Hears k us ds lost) {u : Use} {i n : Nat} (hu : ∀ e, u ≠ .callback e)
    (hdrop : u ≠ .drop k)
    (huse : (after us).use u = (after us).hear i ((after us).bridge.receive i n)) :
    Hears k (us ++ [u]) ds lost := by
  have hdropped : Dropped k (us ++ [u]) ↔ Dropped k us :=
    dropped_concat.trans (or_iff_left fun h => hdrop h.1)
  by_cases hik : i = k
  · subst hik
    have hwaiting : ((after us).use u).bridge.waiting i =
        ((after us).bridge.waiting i).drop n := by
      rw [huse]
      show Bridge.waiting { (after us).bridge with inboxes := _ } i = _
      rw [waiting_modify, if_pos rfl]
      cases hx : (after us).bridge.inboxes[i]? with
      | none => simp [waiting, hx]
      | some x =>
        rw [waiting_of_get hx]
        rfl
    have hheard : ((after us).use u).heard i =
        (after us).heard i ++ ((after us).bridge.waiting i).take n := by
      rw [huse]
      exact if_pos rfl
    refine H.moved hu [] ?_ (absurd rfl) fun h => ?_
    · rw [hheard, hwaiting, List.append_nil, List.append_assoc, List.take_append_drop]
    · rw [hwaiting, H.dropped (hdropped.mp h), List.drop_nil]
  · refine H.aside hu (fun h => (hdrop h).elim) ?_ ?_
    · rw [huse]
      exact if_neg (Ne.symm hik)
    · rw [huse]
      show Bridge.waiting { (after us).bridge with inboxes := _ } k = _
      rw [waiting_modify, if_neg hik]

theorem drop (H : Hears k us ds lost) (i : Nat) : ∃ rest, Hears k (us ++ [.drop i]) ds rest := by
  by_cases hik : i = k
  · subst hik
    have hwaiting : ((after us).use (.drop i)).bridge.waiting i = [] := by
      show Bridge.waiting { (after us).bridge with inboxes := _ } i = _
      rw [waiting_modify, if_pos rfl]
      cases (after us).bridge.inboxes[i]? <;> rfl
    refine ⟨_, H.moved (u := .drop i) (fun _ => nofun) ((after us).bridge.waiting i) ?_
      (fun hne => ?_) fun _ => hwaiting⟩
    · rw [hwaiting, List.append_nil]
      rfl
    · refine dropped_concat.mpr (.inr ⟨rfl, ?_⟩)
      rw [← (kept us).size]
      by_contra hle
      refine hne ?_
      rw [waiting, Array.getElem?_eq_none (Nat.le_of_not_lt hle)]
      rfl
  · refine ⟨lost, H.aside (fun _ => nofun) (fun h => absurd (Use.drop.inj h) hik) rfl ?_⟩
    show Bridge.waiting { (after us).bridge with inboxes := _ } k = _
    rw [waiting_modify, if_neg hik]

theorem attach (H : Hears k us ds lost) (v capacity : Nat) :
    Hears k (us ++ [.attach v capacity]) ds lost := by
  refine H.aside (fun _ => nofun) nofun rfl ?_
  show ((after us).bridge.attach v capacity).waiting k = _
  unfold Bridge.attach waiting
  dsimp only
  rw [Array.getElem?_push]
  split
  · rename_i hk
    rw [Array.getElem?_eq_none (Nat.le_of_eq hk.symm)]
    rfl
  · rfl

theorem detach (H : Hears k us ds lost) (v : Nat) : Hears k (us ++ [.detach v]) ds lost := by
  refine H.aside (fun _ => nofun) nofun rfl ?_
  show ((after us).bridge.detach v).waiting k = _
  unfold Bridge.detach waiting
  split <;> rfl

end Hears

theorem exists_hears (us : List Use) (k : Nat) : ∃ ds lost, Hears k us ds lost := by
  induction us using List.reverseRecOn with
  | nil => exact ⟨[], [], .nil⟩
  | append_singleton us u ih =>
    obtain ⟨ds, lost, H⟩ := ih
    cases u with
    | attach v capacity => exact ⟨ds, lost, H.attach v capacity⟩
    | detach v => exact ⟨ds, lost, H.detach v⟩
    | callback e =>
      obtain ⟨es, H⟩ := H.callback e
      exact ⟨es, lost, H⟩
    | receive i n => exact ⟨ds, lost, H.receive (fun _ => nofun) nofun rfl⟩
    | read i => exact ⟨ds, lost, H.receive (fun _ => nofun) nofun (use_read _ i)⟩
    | drop i =>
      obtain ⟨rest, H⟩ := H.drop i
      exact ⟨ds, rest, H⟩

/-- What a bridge does with callbacks and attaches. -/
structure Routes (us : List Use) : Prop where
  /-- Every reader hears the callbacks that are to be heard there, in order, each once. -/
  hears k : ∃ ds lost, Hears k us ds lost
  /-- A callback that is to be heard goes behind what waits there, and changes nothing else. -/
  posts k e : Reaches k e us → (after us).bridge.post e.vibration e =
    { (after us).bridge with
      inboxes := (after us).bridge.inboxes.modify k
        fun x => { x with waiting := x.waiting ++ [e] } }
  /-- No callback is heard twice. -/
  once j k e : Reaches j e us → Reaches k e us → j = k
  /-- Any other callback changes nothing at all. -/
  unheard e : (∀ k, ¬Reaches k e us) → (after us).bridge.post e.vibration e = (after us).bridge
  attached v : (after us).bridge.attached? = some v ↔ ∃ k, Current k v us
  /-- To detach a vibration that is not attached changes nothing. -/
  detach v : (∀ k, ¬Current k v us) → (after us).bridge.detach v = (after us).bridge

/-- Whatever was done with a bridge, in whatever order, callbacks go where they are to be heard. -/
theorem routes_after (us : List Use) : Routes us where
  hears := exists_hears us
  posts _ _ := post_of_reaches
  once _ _ _ := Reaches.unique
  unheard _ := post_of_unheard
  attached _ := (kept us).attached
  detach v hnone := if_neg fun h => by
    obtain ⟨k, hcurrent⟩ := (kept us).attached.mp h
    exact hnone k hcurrent

/-- The reader of an attach that was replaced hears what came before, and the one of the attach
that replaced it what came since, as long as there is room. -/
example :
    let h := after [.attach 1 2, .callback (.stepComplete 0 1 7), .attach 1 0,
      .callback (.syncedComplete 2), .callback (.syncedComplete 1), .callback (.stepComplete 0 1 8),
      .detach 2, .read 0, .read 1]
    h.heard 0 = [.stepComplete 0 1 7] ∧ h.heard 1 = [.syncedComplete 1] := by
  decide

end Bridge
end Haptics
