import LayeredViews.Proofs.Cache.Sound
import LayeredViews.Proofs.Render.Session
import LayeredViews.Proofs.View.Offered

/-!
# Renders and the cache — one render with any two sound caches

Two states that differ in their caches alone, and in what their journals tell of compiling, are not told
apart by a render, as long as both caches are sound for the sources that the catalog offers: every step of
a page respects such states, and so does the whole render.
-/

namespace LayeredViews

/-! ### States -/

theorem Bench.events_note (b : Bench) (e : Event) :
    (b.note e).events = b.events ++ besidesCompiling [e] := by
  simp [events, note, besidesCompiling]

theorem Bench.Alike.note {S : Set String} {b b' : Bench} (h : Alike S b b') (e : Event) :
    Alike S (b.note e) (b'.note e) :=
  ⟨h.left, h.right, by rw [events_note, events_note, h.events]⟩

/-- Two states with benches that are alike, and nothing else between them. -/
inductive State.Alike (S : Set String) : State → State → Prop where
  | bench {st : State} {bench : Bench} (benches : Bench.Alike S st.bench bench) :
    Alike S st { st with bench }

namespace State

variable {S : Set String} {α : Type}

theorem Alike.cancelRequested {st st' : State} (h : Alike S st st') :
    st.cancelRequested = st'.cancelRequested := by
  obtain ⟨_⟩ := h
  rfl

theorem Alike.noteLookups {st st' : State} (h : Alike S st st') (raises : Nat → Address → Bool)
    (asked : List Address) :
    Alike S (asked.foldl (noteLookup raises) st) (asked.foldl (noteLookup raises) st') := by
  induction asked generalizing st st' with
  | nil => exact h
  | cons a asked ih =>
    obtain ⟨benches⟩ := h
    exact ih (.bench (benches.note (.lookup a)))

theorem search_respects (raises : Nat → Address → Bool) (x : Search α) :
    Respects (Alike S) (search raises x) := by
  intro st st' h
  rw [ending_search, ending_search]
  exact ⟨rfl, h.noteLookups raises _⟩

theorem compose_respects {x : Compose α} (hx : Respects (Bench.Alike S) x) :
    Respects (Alike S) (compose x) := by
  rintro st _ ⟨benches⟩
  obtain ⟨hresult, hbenches⟩ := hx _ _ benches
  rw [ending_compose, ending_compose]
  exact ⟨hresult, .bench hbenches⟩

theorem write_respects (x : Output.Write α) : Respects (Alike S) (write x) := by
  rintro st _ ⟨benches⟩
  rw [ending_write, ending_write]
  exact ⟨rfl, .bench benches⟩

end State

/-! ### Steps of pages -/

section Steps

variable {S : Set String} (s : Session)

theorem Session.found_of_resolvePartial {name : String} {asked : History Address} {l : Layering}
    (h : (ending (s.resolvePartial name) asked).1 = .ok l) :
    ∀ v ∈ l.members, s.finder.FoundAt (ending (s.resolvePartial name) asked).2.toList v := by
  unfold resolvePartial at h ⊢
  split at h
  · next hlayouts =>
    rw [if_pos hlayouts]
    exact Layering.found_of_resolve h
  · next hlayouts =>
    rw [if_neg hlayouts]
    rw [ending_bind] at h ⊢
    rcases hr : ending (s.finder.require name) asked with ⟨_ | leaf, asked'⟩ <;> rw [hr] at h
    · cases h
    · have hleaf := Finder.found_of_require (congrArg Prod.fst hr)
      rw [hr] at hleaf
      obtain rfl := Except.ok.inj h
      intro v hv
      obtain rfl := List.mem_singleton.mp hv
      exact hleaf

theorem Session.offers_of_resolvePartial {name : String} {asked : History Address} {l : Layering}
    (h : (ending (s.resolvePartial name) asked).1 = .ok l) : ∀ v ∈ l.members, s.finder.Offers v :=
  fun v hv => (s.found_of_resolvePartial h v hv).offers

theorem layers_respects (hinj : Set.InjOn Digest.ofText S) (hS : s.finder.sources ⊆ S) {l : Layering}
    (hl : ∀ v ∈ l.members, s.finder.Offers v) : Respects (Bench.Alike S) (Compose.layers l) :=
  Compose.layersOf_respects hinj fun v hv _ hsource => hS ⟨v, hl v hv, hsource⟩

theorem partialLayers_respects (hinj : Set.InjOn Digest.ofText S) (hS : s.finder.sources ⊆ S)
    (name : String) : Respects (State.Alike S) (s.partialLayers name) := by
  refine ((State.search_respects s.raises _).adaptExcept _).bind_of fun layering st h => ?_
  rw [ending_adaptExcept, State.ending_search] at h
  have hl : ∀ v ∈ layering.members, s.finder.Offers v := by
    rcases hr : (ending (s.resolvePartial name) .empty).1 with e | layering' <;> rw [hr] at h
    · cases h
    · obtain rfl := Except.ok.inj h
      exact s.offers_of_resolvePartial hr
  exact (State.compose_respects (layers_respects s hinj hS hl)).adaptExcept _

theorem respects_closed (hinj : Set.InjOn Digest.ofText S) (hS : s.finder.sources ⊆ S) :
    Render.Closed s (Respects (State.Alike S)) where
  pure := .pure
  bind := .bind
  fault _ _ _ := .throw _
  withBag f hf := .get_bind State.bag (fun _ _ ⟨_⟩ => rfl) hf
  setBag f := .modify fun _ _ ⟨benches⟩ => .bench benches
  write text := (State.write_respects _).adaptExcept _
  check st st' h := by
    rw [Render.ending_checkCancelled, Render.ending_checkCancelled, h.cancelRequested]
    split_ifs
    · obtain ⟨benches⟩ := h
      exact ⟨rfl, .bench (benches.note .refused)⟩
    · exact ⟨rfl, h⟩
  start template depth := .modify fun _ _ ⟨benches⟩ => .bench (benches.note (.started template depth))
  partialLayers := partialLayers_respects s hinj hS

end Steps

/-! ### The render -/

namespace Session

variable {S : Set String} {ε α : Type} (s : Session)

theorem enter_respects (phase : Phase) : Respects (State.Alike S) (enter phase) :=
  .modify fun _ _ ⟨benches⟩ => .bench benches

theorem fatal_respects (e : RenderError) : Respects (State.Alike S) (fatal e : Run α) :=
  (enter_respects .failed).bind fun _ => .throw e

theorem attempt_respects {x : EStateM ε State α} (hx : Respects (State.Alike S) x) :
    Respects (State.Alike S) (attempt x) := by
  intro st st' h
  obtain ⟨hresult, hstates⟩ := hx st st' h
  rw [ending_attempt, ending_attempt, hresult]
  exact ⟨rfl, hstates⟩

theorem onOutput_respects (x : Output.Write α) : Respects (State.Alike S) (onOutput x) :=
  (State.write_respects x).adaptExcept _

theorem showFailure_respects (f : Failure) : Respects (State.Alike S) (showFailure f) :=
  (enter_respects .failed).bind fun _ =>
    .bind (.modify fun _ _ ⟨benches⟩ => .bench benches) fun _ =>
      (onOutput_respects _).bind fun _ => (onOutput_respects _).bind fun _ => .pure _

theorem executionFailed_respects (e : ExecError) :
    Respects (State.Alike S) (s.executionFailed e) := by
  rintro st _ ⟨benches⟩
  rw [ending_executionFailed, ending_executionFailed]
  dsimp only
  split
  · exact showFailure_respects _ _ _ (.bench benches)
  · exact ⟨rfl, .bench benches⟩

theorem resolveUnless_respects (cancelled : Bool) :
    Respects (State.Alike S) (s.resolveUnless cancelled) := by
  unfold resolveUnless
  split
  · exact fatal_respects _
  · refine (attempt_respects (State.search_respects s.raises _)).bind fun result => ?_
    rcases result with (_ | _) | layering
    · exact fatal_respects _
    · exact fatal_respects _
    · exact .pure layering

theorem resolve_respects : Respects (State.Alike S) s.resolve := by
  rintro st _ ⟨benches⟩
  rw [ending_resolve, ending_resolve]
  exact s.resolveUnless_respects _ _ _ (.bench benches)

theorem offers_of_session_resolve {st : State} {l : Layering}
    (h : (ending s.resolve st).1 = .ok l) : ∀ v ∈ l.members, s.finder.Offers v := by
  rw [ending_resolve] at h
  unfold resolveUnless at h
  split at h
  · cases h
  · rw [ending_bind, ending_attempt, State.ending_search] at h
    dsimp only at h
    rcases hr : (ending (Layering.resolve s.finder s.settings.layoutName s.view) .empty).1 with
      (_ | _) | layering <;> rw [hr] at h
    · cases h
    · cases h
    · obtain rfl := Except.ok.inj h
      exact Layering.offers_of_resolve hr

theorem execute_respects (hinj : Set.InjOn Digest.ofText S) (hS : s.finder.sources ⊆ S)
    (layers : List Layer) : Respects (State.Alike S) (s.execute layers) := by
  have hlayers := (respects_closed s hinj hS).layers layers
  refine (enter_respects .executing).bind fun _ => (attempt_respects hlayers).bind fun result => ?_
  cases result with
  | ok u => exact (onOutput_respects _).bind fun _ => (enter_respects .completed).bind fun _ => .pure _
  | error e => exact s.executionFailed_respects e

/-- A render gives the same from states that differ in sound caches alone. -/
theorem run_respects (hinj : Set.InjOn Digest.ofText S) (hS : s.finder.sources ⊆ S) :
    Respects (State.Alike S) s.run := by
  refine s.resolve_respects.bind_of fun layering st h => (enter_respects .composing).bind fun _ => ?_
  have hlayers := layers_respects s hinj hS (s.offers_of_session_resolve h)
  refine (attempt_respects (State.compose_respects hlayers)).bind fun result => ?_
  rcases result with (f | e) | layers
  · exact showFailure_respects f
  · exact fatal_respects _
  · exact s.execute_respects hinj hS layers

/-- The choice about a cache counts for nothing in a render; only the state has one. -/
theorem run_retuned (cached : Bool) : (s.retuned s.settings.bufferLimit cached).run = s.run := by
  have hexecute : ∀ layers, (s.retuned s.settings.bufferLimit cached).execute layers =
      s.execute layers := by
    intro layers
    unfold execute
    rw [scene_retuned]
    rfl
  unfold run
  simp only [hexecute]
  rfl

end Session

end LayeredViews
