import LayeredViews.Proofs.Cache.Sound
import LayeredViews.Proofs.Render.Writing

/-!
# Unwatching programs — steps that make nothing of which pages have started

The journal tells of each page that starts, and of much else, but no step of a render reads it.  States with
one journal but for the pages that have started are not told apart, nor are they as long as a cancel flag that
is heeded stays down.  Partial views of a session are of that kind if no lookup raises the flag.
-/

namespace LayeredViews

/-! ### States -/

/-- A journal without what tells of pages that start. -/
def besidesStarting (journal : List Event) : List Event :=
  journal.filter fun
    | .started _ _ => false
    | _ => true

namespace State

/-- The cancel flag is not raised, and no call of the sink will raise it. -/
structure Calm (st : State) : Prop where
  notRequested : st.cancelRequested = false
  raisesOn : ∀ n, st.out.sink.raisesOn n = false

/-- The state with another journal. -/
def withJournal (st : State) (journal : History Event) : State :=
  { st with bench := { st.bench with journal } }

/-- Two states with one journal but for what tells of pages that start, and nothing else between them; where
the cancel flag is heeded it is not raised. -/
inductive Akin (heeds : Bool) (st : State) : State → Prop where
  | withJournal {journal : History Event} (calm : heeds = true → st.Calm)
    (events : besidesStarting st.bench.journal.toList = besidesStarting journal.toList) :
    Akin heeds st (st.withJournal journal)

variable {heeds : Bool} {st st' : State}

theorem Akin.refl (h : heeds = true → st.Calm) : Akin heeds st st :=
  .withJournal h rfl

theorem Akin.calm (h : Akin heeds st st') (hheeds : heeds = true) : st.Calm := by
  obtain ⟨calm, -⟩ := h
  exact calm hheeds

theorem Akin.out (h : Akin heeds st st') : st.out = st'.out := by
  obtain ⟨-, -⟩ := h
  rfl

theorem Akin.bag (h : Akin heeds st st') : st.bag = st'.bag := by
  obtain ⟨-, -⟩ := h
  rfl

theorem Akin.symm (h : Akin heeds st st') : Akin heeds st' st := by
  cases h with
  | @withJournal journal calm events =>
  show Akin heeds (st.withJournal journal) ((st.withJournal journal).withJournal st.bench.journal)
  refine .withJournal (fun hheeds => ?_) events.symm
  obtain ⟨hrequested, hraises⟩ := calm hheeds
  exact ⟨hrequested, hraises⟩

/-- A change that leaves the bench out and the cancel flag as it is. -/
theorem Akin.updated (h : Akin heeds st st') {f : State → State}
    (hf : ∀ journal, f (st.withJournal journal) = (f st).withJournal journal)
    (hbench : (f st).bench = st.bench) (hcalm : heeds = true → st.Calm → (f st).Calm) :
    Akin heeds (f st) (f st') := by
  obtain ⟨calm, events⟩ := h
  rw [hf]
  refine .withJournal (fun hheeds => hcalm hheeds (calm hheeds)) ?_
  rw [hbench]
  exact events

theorem Akin.started (h : Akin heeds st st') (template : String) (depth : Nat) :
    Akin heeds (st.note (.started template depth)) st' := by
  cases h with
  | @withJournal journal calm events =>
  show Akin heeds (st.note (.started template depth))
    ((st.note (.started template depth)).withJournal journal)
  refine .withJournal (fun hheeds => ?_) ?_
  · obtain ⟨hrequested, hraises⟩ := calm hheeds
    exact ⟨hrequested, hraises⟩
  · rw [← events]
    simp [State.note, Bench.note, besidesStarting]

theorem Calm.withOut {out : Output} (h : st.Calm) {sent : String} (ht : st.out.sink.Took sent out.sink) :
    (st.withOut out).Calm := by
  obtain ⟨hrequested, hraises⟩ := h
  obtain ⟨hflag, hraised⟩ := Bool.or_eq_false_iff.mp hrequested
  refine ⟨Bool.or_eq_false_iff.mpr ⟨hflag, ?_⟩, fun n => ?_⟩
  · refine Bool.eq_false_iff.mpr fun hafter => ?_
    rcases ht.of_raised hafter with hbefore | ⟨n, hn⟩
    · rw [hraised] at hbefore
      cases hbefore
    · rw [hraises n] at hn
      cases hn
  · show out.sink.raisesOn n = false
    rw [ht.raisesOn]
    exact hraises n

end State

/-- Writing sends some text, perhaps none. -/
theorem Output.write_took (text : String) (out : Output) :
    ∃ sent, out.sink.Took sent (ending (write text) out).2.sink := by
  by_cases hempty : text = ""
  · subst hempty
    exact ⟨"", .refl _⟩
  rw [ending_write hempty]
  split
  · next hlong =>
    rcases commit_cases (out.buffered text) (buffered_ne_empty hlong) with ⟨s', hc, ht⟩ | ⟨-, s', hc, ht⟩
    · rw [hc]
      exact ⟨_, ht⟩
    · rw [hc]
      exact ⟨_, ht⟩
  · exact ⟨"", .refl _⟩

/-! ### Steps -/

namespace Render

variable {heeds : Bool}

theorem writeText_respects_akin (text : String) : Respects (State.Akin heeds) (writeText text) := by
  intro st st' h
  have hshared : (ending (writeText text) st).1 = (ending (writeText text) st').1 := by
    obtain ⟨-, -⟩ := h
    rw [ending_writeText, ending_writeText]
    rfl
  refine ⟨hshared, ?_⟩
  obtain ⟨sent, ht⟩ := Output.write_took text st.out
  have hupdated := h.updated (f := fun st => st.withOut (ending (Output.write text) st.out).2)
    (fun _ => rfl) rfl fun _ hcalm => hcalm.withOut ht
  rw [ending_writeText, ending_writeText]
  exact hupdated

theorem setBag_respects_akin (f : Bag → Bag) :
    Respects (State.Akin heeds) (modify fun st => { st with bag := f st.bag } : Render Unit) :=
  .modify fun _ _ h => h.updated (f := fun st => { st with bag := f st.bag }) (fun _ => rfl) rfl
    fun _ hcalm => ⟨hcalm.notRequested, hcalm.raisesOn⟩

/-- Where no flag is raised, looking at it does nothing. -/
theorem checkCancelled_calm {st st' : State} (h : State.Akin heeds st st') :
    ending (checkCancelled heeds) st = (.ok (), st) := by
  rw [ending_checkCancelled]
  cases heeds with
  | false => rfl
  | true => rw [(h.calm rfl).notRequested]; rfl

theorem checkCancelled_respects_akin : Respects (State.Akin heeds) (checkCancelled heeds) := by
  intro st st' h
  rw [checkCancelled_calm h, checkCancelled_calm h.symm]
  exact ⟨rfl, h⟩

end Render

/-- Rendering a partial view makes nothing of what the journal says of pages that start, and does not raise a
cancel flag that is heeded. -/
def Scene.Unwatching (scene : Scene) : Prop :=
  ∀ render ∈ scene.deeper?, ∀ name, Respects (State.Akin scene.heedsFlag) (render name)

/-! ### Partial views of a session -/

/-- Two benches with one cache, and one journal but for what tells of pages that start. -/
structure Bench.Akin (b b' : Bench) : Prop where
  cache : b.cache = b'.cache
  events : besidesStarting b.journal.toList = besidesStarting b'.journal.toList

theorem Bench.Akin.note {b b' : Bench} (h : b.Akin b') (e : Event) : (b.note e).Akin (b'.note e) := by
  refine ⟨h.cache, ?_⟩
  have happend : ∀ journal : History Event, besidesStarting (journal.push e).toList =
      besidesStarting journal.toList ++ besidesStarting [e] := by
    intro journal
    rw [History.toList_push]
    exact List.filter_append _ _
  show besidesStarting (b.journal.push e).toList = besidesStarting (b'.journal.push e).toList
  rw [happend, happend, h.events]

namespace Compose

theorem readSource_respects_akin (view : View) : Respects Bench.Akin (Bench.readSource view) := by
  intro b b' h
  rw [Bench.ending_readSource, Bench.ending_readSource]
  exact ⟨rfl, h.note _⟩

theorem fetch_respects_akin (template source : String) : Respects Bench.Akin (fetch template source) := by
  intro b b' h
  unfold ending fetch
  rw [h.cache]
  cases b'.cache with
  | none => exact ⟨rfl, h⟩
  | some cache => exact ⟨rfl, rfl, h.events⟩

theorem compileSource_respects_akin (view : View) (source : String) :
    Respects Bench.Akin (Bench.compileSource view source) := by
  intro b b' h
  rw [Bench.ending_compileSource, Bench.ending_compileSource]
  exact ⟨rfl, h.note _⟩

theorem keep_respects_akin (template source : String) (page : Template.Page) :
    Respects Bench.Akin (keep template source page) := by
  intro b b' h
  refine ⟨rfl, ?_, h.events⟩
  exact congrArg (Option.map _) h.cache

theorem pageOf_respects_akin (view : View) : Respects Bench.Akin (pageOf view) := by
  refine ((readSource_respects_akin view).adaptExcept _).bind fun source => ?_
  refine (fetch_respects_akin view.fullName source).bind fun page? => ?_
  cases page? with
  | some page => exact .pure page
  | none =>
    refine ((compileSource_respects_akin view source).adaptExcept _).bind fun page => ?_
    exact (keep_respects_akin view.fullName source page).bind fun _ => .pure page

end Compose

namespace State

variable {heeds : Bool} {st st' : State}

theorem Akin.bench (h : Akin heeds st st') : st.bench.Akin st'.bench := by
  obtain ⟨-, events⟩ := h
  exact ⟨rfl, events⟩

theorem Akin.withBench (h : Akin heeds st st') {b b' : Bench} (hb : b.Akin b') :
    Akin heeds { st with bench := b } { st' with bench := b' } := by
  obtain ⟨calm, -⟩ := h
  obtain ⟨cache, journal⟩ := b
  obtain ⟨cache', journal'⟩ := b'
  obtain ⟨hcache, hevents⟩ := hb
  obtain rfl : cache = cache' := hcache
  show Akin heeds { st with bench := ⟨cache, journal⟩ }
    (State.withJournal { st with bench := ⟨cache, journal⟩ } journal')
  refine .withJournal (fun hheeds => ?_) hevents
  obtain ⟨hrequested, hraises⟩ := calm hheeds
  exact ⟨hrequested, hraises⟩

theorem compose_respects_akin {α : Type} {x : Compose α} (hx : Respects Bench.Akin x) :
    Respects (Akin heeds) (compose x) := by
  intro st st' h
  obtain ⟨hresult, hbenches⟩ := hx _ _ h.bench
  rw [ending_compose, ending_compose]
  exact ⟨hresult, h.withBench hbenches⟩

theorem Akin.noteLookup (h : Akin heeds st st') {raises : Nat → Address → Bool}
    (hraises : heeds = true → ∀ n a, raises n a = false) (a : Address) :
    Akin heeds (noteLookup raises st a) (noteLookup raises st' a) := by
  have hflag := h.updated
    (f := fun st => { st with flag := st.flag || raises st.lookups a, lookups := st.lookups + 1 })
    (fun _ => rfl) rfl fun hheeds hcalm => ?_
  · exact hflag.withBench (h.bench.note (.lookup a))
  · obtain ⟨hrequested, hsink⟩ := hcalm
    obtain ⟨hdown, hraised⟩ := Bool.or_eq_false_iff.mp hrequested
    exact ⟨by simp [cancelRequested, hdown, hraised, hraises hheeds], hsink⟩

theorem search_respects_akin {α : Type} {raises : Nat → Address → Bool}
    (hraises : heeds = true → ∀ n a, raises n a = false) (x : Search α) :
    Respects (Akin heeds) (search raises x) := by
  intro st st' h
  rw [ending_search, ending_search]
  refine ⟨rfl, ?_⟩
  induction (ending x .empty).2.toList generalizing st st' with
  | nil => exact h
  | cons a asked ih => exact ih _ _ (h.noteLookup hraises a)

end State

namespace Session

variable (s : Session)

theorem akin_closed (hraises : s.heedsFlag = true → ∀ n a, s.raises n a = false) :
    Render.Closed s (Respects (State.Akin s.heedsFlag)) where
  pure := .pure
  bind := .bind
  fault _ _ _ := .throw _
  withBag f hf := .get_bind State.bag (fun _ _ h => h.bag) hf
  setBag := Render.setBag_respects_akin
  write := Render.writeText_respects_akin
  check := Render.checkCancelled_respects_akin
  start template depth := .modify fun _ _ h => h.withBench (h.bench.note (.started template depth))
  partialLayers name := by
    refine ((State.search_respects_akin hraises _).adaptExcept _).bind fun layering => ?_
    have hlayers := Compose.layersOf_respects_of fun view (_ : view ∈ layering.members) =>
      Compose.pageOf_respects_akin view
    exact (State.compose_respects_akin hlayers).adaptExcept _

/-- Partial views of a session make nothing of which pages have started. -/
theorem scene_unwatching (hraises : s.heedsFlag = true → ∀ n a, s.raises n a = false) :
    s.scene.Unwatching := by
  intro render hrender name
  have hheeds : s.scene.heedsFlag = s.heedsFlag :=
    ((s.akin_closed hraises).on.sceneAt s.settings.maxPartialDepth 0 (Nat.zero_add _)).heedsFlag
  rw [hheeds]
  exact (s.akin_closed hraises).deeper hrender name

end Session

end LayeredViews
