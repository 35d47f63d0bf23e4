import LayeredViews.Proofs.Cache.Render

/-!
# Serving — where the layers of a render come from

Every layer that a render runs is the page of a view that it has found by a lookup and read before; a bench
`Serves` a finder with a property of such pages if compiling keeps it.  `partialLayers_served` and
`resolve_served` carry that through the two ways in which a render comes to layers.
-/

namespace LayeredViews

open Template (Page)

/-! ### Benches -/

/-- Benches of a kind that compiling keeps, and what views that have been found compile to on them. -/
structure Bench.Serves (f : Finder) (I : Bench → Prop)
    (Fits : List Event → View → Except ComposeError Page → Prop) : Prop where
  note : ∀ {b} (e : Event), I b → I (b.note e)
  pageOf : ∀ {b v}, I b → f.FoundAt (lookupsOf b.events) v →
    ∃ r b', ending (Compose.pageOf v) b = (r, b') ∧ I b' ∧ Fits b'.events v r ∧
      b'.events = b.events ++ [.read v.fullName]
  mono : ∀ {told more v r}, Fits told v r → told ⊆ more → Fits more v r

/-- A view that has been found and read, with what it has compiled to. -/
structure Finder.Served (f : Finder) (Fits : List Event → View → Except ComposeError Page → Prop)
    (told : List Event) (v : View) (r : Except ComposeError Page) : Prop where
  found : f.FoundAt (lookupsOf told) v
  read : .read v.fullName ∈ told
  fits : Fits told v r

/-- What compiling some views in order has come to: each layer is the page of one of them, and an error is
that of one of them. -/
structure Bench.Composed (f : Finder) (Fits : List Event → View → Except ComposeError Page → Prop)
    (views : List View) (before : Bench) (r : Except ComposeError (List Layer)) (after : Bench) : Prop where
  keeps : before.events ⊆ after.events
  pages : ∀ layers, r = .ok layers → ∀ layer ∈ layers, ∃ v ∈ views,
    layer.template = v.fullName ∧ f.Served Fits after.events v (.ok layer.page)
  fails : ∀ e, r = .error e → ∃ v ∈ views, f.Served Fits after.events v (.error e)

variable {f : Finder} {I : Bench → Prop} {Fits : List Event → View → Except ComposeError Page → Prop}

theorem Finder.FoundAt.told {told more : List Event} {v : View} (h : f.FoundAt (lookupsOf told) v)
    (hmore : told ⊆ more) : f.FoundAt (lookupsOf more) v :=
  h.mono (List.filterMap_subset _ hmore)

theorem Finder.Served.mono (h : Bench.Serves f I Fits) {told more : List Event} {v : View}
    {r : Except ComposeError Page} (hv : f.Served Fits told v r) (hmore : told ⊆ more) :
    f.Served Fits more v r :=
  ⟨hv.found.told hmore, hmore hv.read, h.mono hv.fits hmore⟩

namespace Bench.Serves

variable (h : Bench.Serves f I Fits) {b : Bench}
include h

theorem layersOf {views : List View} (hviews : ∀ v ∈ views, f.FoundAt (lookupsOf b.events) v) (hb : I b) :
    ∃ r b', ending (Compose.layersOf views) b = (r, b') ∧ I b' ∧ Composed f Fits views b r b' := by
  induction views generalizing b with
  | nil =>
    refine ⟨.ok [], b, rfl, hb, List.Subset.refl _, fun layers hl => ?_, nofun⟩
    obtain rfl := Except.ok.inj hl
    simp
  | cons view views ih =>
    obtain ⟨hview, hothers⟩ := List.forall_mem_cons.mp hviews
    obtain ⟨r, b₁, hpage, hb₁, hfits, hevents⟩ := h.pageOf hb hview
    have hkeeps : b.events ⊆ b₁.events := hevents ▸ List.subset_append_left _ _
    have hserved : f.Served Fits b₁.events view r := ⟨hview.told hkeeps, by simp [hevents], hfits⟩
    rcases r with e | page
    · refine ⟨.error e, b₁, ?_, hb₁, hkeeps, nofun, fun e' he' => ?_⟩
      · cases views <;> exact ending_bind_error hpage _
      · obtain rfl := Except.error.inj he'
        exact ⟨view, by simp, hserved⟩
    cases views with
    | nil =>
      refine ⟨_, b₁, ending_bind_ok hpage _, hb₁, hkeeps, fun layers hl layer hlayer => ?_, nofun⟩
      obtain rfl := Except.ok.inj hl
      obtain rfl := List.mem_singleton.mp hlayer
      exact ⟨view, by simp, rfl, hserved⟩
    | cons next others =>
      obtain ⟨r, b₂, hrest, hb₂, hcomposed⟩ := ih (fun v hv => (hothers v hv).told hkeeps) hb₁
      have hend : ending (Compose.layersOf (view :: next :: others)) b =
          (r.map (⟨view.fullName, .ancestor, page⟩ :: ·), b₂) := by
        refine (ending_bind_ok hpage _).trans ((ending_bind _ _ b₁).trans ?_)
        rw [hrest]
        cases r <;> rfl
      refine ⟨_, b₂, hend, hb₂, List.Subset.trans hkeeps hcomposed.keeps, fun layers hl layer hlayer => ?_,
        fun e he => ?_⟩
      · rcases r with _ | layers'
        · cases hl
        obtain rfl := Except.ok.inj hl
        rcases List.mem_cons.mp hlayer with rfl | hlayer
        · exact ⟨view, by simp, rfl, hserved.mono h hcomposed.keeps⟩
        · obtain ⟨v, hv, hpages⟩ := hcomposed.pages layers' rfl layer hlayer
          exact ⟨v, List.mem_cons_of_mem view hv, hpages⟩
      · rcases r with e' | _
        · obtain rfl := Except.error.inj he
          obtain ⟨v, hv, hfails⟩ := hcomposed.fails e' rfl
          exact ⟨v, List.mem_cons_of_mem view hv, hfails⟩
        · cases he

end Bench.Serves

namespace Session

/-! ### Programs that come to layers -/

/-- The view is a member of the layering of the view to be rendered. -/
def ViewMember (s : Session) (v : View) : Prop :=
  ∃ l, (ending (Layering.resolve s.finder s.settings.layoutName s.view) .empty).1 = .ok l ∧ v ∈ l.members

/-- The view is a member of the layering of the partial view. -/
def PartialMember (s : Session) (name : String) (v : View) : Prop :=
  ∃ l, (ending (s.resolvePartial name) .empty).1 = .ok l ∧ v ∈ l.members

/-- Resolves the view and compiles its layering. -/
def prepare (s : Session) : Run (Except ComposeError (List Layer)) := do
  let layering ← s.resolve
  enter .composing
  attempt (State.compose (Compose.layers layering))

/-- Goes on with what the layering has compiled to. -/
def proceed (s : Session) : Except ComposeError (List Layer) → Run Outcome
  | .ok layers => s.execute layers
  | .error (.failure f) => showFailure f
  | .error (.content e) => fatal (.content e)

theorem run_eq (s : Session) : s.run = s.prepare >>= s.proceed := by
  unfold run prepare
  simp only [bind_assoc]
  rfl

theorem ending_run_of_prepare {s : Session} {start st : State} {layers : List Layer}
    (h : ending s.prepare start = (.ok (.ok layers), st)) :
    ending s.run start = ending (s.execute layers) st := by
  rw [run_eq, ending_bind_ok h]
  rfl

theorem ending_run_of_prepare_error {s : Session} {start st : State} {e : RenderError}
    (h : ending s.prepare start = (.error e, st)) : ending s.run start = (.error e, st) := by
  rw [run_eq, ending_bind_error h]

/-- A layering that does not compile is shown as a failure, or goes to the caller. -/
theorem bench_proceed_error {s : Session} (c : ComposeError) (st : State) :
    (ending (s.proceed (.error c)) st).2.bench = st.bench := by
  cases c with
  | failure f => exact (showFailure_ends f st).1
  | content e => rfl

theorem ending_prepare (s : Session) (st : State) :
    ending s.prepare st =
      match ending s.resolve st with
      | (.ok layering, st') =>
        (.ok (ending (Compose.layers layering) st'.bench).1,
          { st' with phase := .composing, bench := (ending (Compose.layers layering) st'.bench).2 })
      | (.error e, st') => (.error e, st') := by
  unfold prepare
  rw [ending_bind]
  rcases ending s.resolve st with ⟨e | layering, st'⟩
  · rfl
  · dsimp only
    rw [ending_bind_ok (ending_enter st' .composing), ending_attempt, State.ending_compose]

theorem out_prepare (s : Session) (st : State) : (ending s.prepare st).2.out = st.out := by
  have hresolve := s.out_resolve st
  rw [ending_prepare]
  rcases hr : ending s.resolve st with ⟨e | layering, st'⟩ <;> rw [hr] at hresolve <;> exact hresolve

/-! ### Searching and composing -/

variable {s : Session} {st : State} (h : Bench.Serves s.finder I Fits)
include h

/-- Noted lookups are told. -/
theorem noteLookups_told (raises : Nat → Address → Bool) (asked : List Address) (hI : I st.bench) :
    I (asked.foldl (State.noteLookup raises) st).bench ∧
      (asked.foldl (State.noteLookup raises) st).bench.events =
        st.bench.events ++ asked.map .lookup := by
  induction asked generalizing st with
  | nil => exact ⟨hI, (List.append_nil _).symm⟩
  | cons a asked ih =>
    have hnoted : I (State.noteLookup raises st a).bench := h.note (.lookup a) hI
    obtain ⟨hkept, hevents⟩ := ih hnoted
    refine ⟨hkept, ?_⟩
    have hfirst : (State.noteLookup raises st a).bench.events = st.bench.events ++ [.lookup a] :=
      st.bench.events_note (.lookup a)
    rw [List.foldl_cons, hevents, hfirst, List.append_assoc]
    rfl

/-- A search tells of its lookups. -/
theorem search_told {α : Type} (x : Search α) (hI : I st.bench) :
    ∃ st', ending (State.search s.raises x) st = ((ending x .empty).1, st') ∧ I st'.bench ∧
      st'.bench.events = st.bench.events ++ (ending x .empty).2.toList.map .lookup := by
  obtain ⟨hI', hevents⟩ := noteLookups_told h s.raises (ending x .empty).2.toList hI
  exact ⟨_, State.ending_search s.raises x st, hI', hevents⟩

omit h in
theorem found_of_lookups (told : List Event) {asked : List Address} {v : View}
    (hv : s.finder.FoundAt asked v) :
    s.finder.FoundAt (lookupsOf (told ++ asked.map .lookup)) v := by
  refine hv.mono fun a ha => ?_
  exact List.mem_filterMap.mpr ⟨.lookup a, List.mem_append_right told (List.mem_map_of_mem ha), rfl⟩

theorem compose_served {layering : Layering} (hI : I st.bench)
    (hfound : ∀ v ∈ layering.members, s.finder.FoundAt (lookupsOf st.bench.events) v) :
    ∃ r b, ending (State.compose (Compose.layers layering)) st = (r, { st with bench := b }) ∧ I b ∧
      Bench.Composed s.finder Fits layering.members st.bench r b := by
  obtain ⟨r, b, hend, hb, hcomposed⟩ := h.layersOf hfound hI
  refine ⟨r, b, ?_, hb, hcomposed⟩
  rw [State.ending_compose, show ending (Compose.layers layering) st.bench = (r, b) from hend]

/-- Coming to the layers of a partial view: each is the page of a member, and a failure is that of one. -/
theorem partialLayers_served (name : String) (st : State) (hI : I st.bench) :
    ∃ r st', ending (s.partialLayers name) st = (r, st') ∧ I st'.bench ∧
      st.bench.events ⊆ st'.bench.events ∧
      (∀ layers, r = .ok layers → ∀ layer ∈ layers, ∃ v, s.PartialMember name v ∧
        layer.template = v.fullName ∧ s.finder.Served Fits st'.bench.events v (.ok layer.page)) ∧
      ∀ e f, r = .error e → e.failure? = some f → ∃ v, s.PartialMember name v ∧
        s.finder.Served Fits st'.bench.events v (.error (.failure f)) := by
  unfold partialLayers
  obtain ⟨st₁, hsearch, hI₁, hevents⟩ := search_told h (s.resolvePartial name) hI
  have hkeeps : st.bench.events ⊆ st₁.bench.events := hevents ▸ List.subset_append_left _ _
  rcases hresolved : (ending (s.resolvePartial name) .empty).1 with c | layering <;>
    rw [hresolved] at hsearch
  · rw [ending_bind_error (ending_adaptExcept_error hsearch _)]
    refine ⟨_, st₁, rfl, hI₁, hkeeps, nofun, fun e f he hf => ?_⟩
    obtain rfl := Except.error.inj he
    cases c <;> cases hf
  rw [ending_bind_ok (ending_adaptExcept_ok hsearch _)]
  have hfound := s.found_of_resolvePartial hresolved
  obtain ⟨r, b, hcompose, hb, hcomposed⟩ := compose_served h hI₁
    fun v hv => hevents ▸ found_of_lookups _ (hfound v hv)
  rw [ending_adaptExcept, hcompose]
  refine ⟨_, _, rfl, hb, List.Subset.trans hkeeps hcomposed.keeps, fun layers hl layer hlayer => ?_,
    fun e f he hf => ?_⟩
  · rcases r with _ | layers'
    · cases hl
    obtain rfl := Except.ok.inj hl
    obtain ⟨v, hv, htemplate, hserved⟩ := hcomposed.pages layers' rfl layer hlayer
    exact ⟨v, ⟨layering, hresolved, hv⟩, htemplate, hserved⟩
  · rcases r with (f' | c) | _
    · obtain rfl := Except.error.inj he
      obtain rfl := Option.some.inj hf
      obtain ⟨v, hv, hserved⟩ := hcomposed.fails _ rfl
      exact ⟨v, ⟨layering, hresolved, hv⟩, hserved⟩
    · obtain rfl := Except.error.inj he
      cases hf
    · cases he

/-- What has been resolved has been found by lookups; otherwise the view is missing, cannot be read, or the
render has been cancelled. -/
theorem resolve_served (hI : I st.bench) :
    ∃ r st', ending s.resolve st = (r, st') ∧ I st'.bench ∧
      (∀ e, r = .error e →
        e = .viewNotFound s.view ∨ (∃ c, e = .content c) ∨ e = .cancelled s.view false) ∧
      ∀ l, r = .ok l →
        (ending (Layering.resolve s.finder s.settings.layoutName s.view) .empty).1 = .ok l ∧
          ∀ v ∈ l.members, s.finder.FoundAt (lookupsOf st'.bench.events) v := by
  rw [ending_resolve]
  unfold resolveUnless
  split
  · refine ⟨.error _, _, ending_fatal _ _, hI, fun e he => ?_, nofun⟩
    exact Or.inr (Or.inr (Except.error.inj he).symm)
  have hstart : I (State.bench { st with phase := .resolving }) := hI
  obtain ⟨st', hsearch, hI', hevents⟩ :=
    search_told h (Layering.resolve s.finder s.settings.layoutName s.view) hstart
  rw [ending_bind, ending_attempt, hsearch]
  dsimp only
  rcases hresolved : (ending (Layering.resolve s.finder s.settings.layoutName s.view) .empty).1 with
    (c | c) | layering
  · refine ⟨.error _, _, ending_fatal st' _, hI', fun e he => ?_, nofun⟩
    exact Or.inl (Except.error.inj he).symm
  · refine ⟨.error _, _, ending_fatal st' _, hI', fun e he => ?_, nofun⟩
    exact Or.inr (Or.inl ⟨_, (Except.error.inj he).symm⟩)
  · refine ⟨.ok layering, st', rfl, hI', nofun, fun l hl => ?_⟩
    obtain rfl := Except.ok.inj hl
    refine ⟨rfl, fun v hv => ?_⟩
    exact hevents ▸ found_of_lookups st.bench.events (Layering.found_of_resolve hresolved v hv)

/-- Coming to the layers of the view: each is the page of a member of its layering, and a failure is that of
one. -/
theorem prepare_served (st : State) (hI : I st.bench) :
    ∃ r st', ending s.prepare st = (r, st') ∧ I st'.bench ∧
      (∀ e, r = .error e →
        e = .viewNotFound s.view ∨ (∃ c, e = .content c) ∨ e = .cancelled s.view false) ∧
      (∀ layers, r = .ok (.ok layers) → ∀ layer ∈ layers, ∃ v, s.ViewMember v ∧
        layer.template = v.fullName ∧ s.finder.Served Fits st'.bench.events v (.ok layer.page)) ∧
      ∀ e, r = .ok (.error e) → ∃ v, s.ViewMember v ∧
        s.finder.Served Fits st'.bench.events v (.error e) := by
  obtain ⟨r, st₁, hresolve, hI₁, herrors, hmembers⟩ := resolve_served h hI
  unfold prepare
  rcases r with e | layering
  · exact ⟨_, _, ending_bind_error hresolve _, hI₁, fun e' he' => herrors e' (by cases he'; rfl), nofun, nofun⟩
  obtain ⟨hresolved, hfound⟩ := hmembers layering rfl
  have hcomposing : I (State.bench { st₁ with phase := .composing }) := hI₁
  obtain ⟨r, b, hcompose, hb, hcomposed⟩ := compose_served h hcomposing hfound
  rw [ending_bind_ok hresolve, ending_bind_ok (ending_enter st₁ .composing), ending_attempt, hcompose]
  refine ⟨_, _, rfl, hb, nofun, fun layers hl layer hlayer => ?_, fun e he => ?_⟩
  · obtain ⟨v, hv, hpage⟩ := hcomposed.pages layers (Except.ok.inj hl) layer hlayer
    exact ⟨v, ⟨layering, hresolved, hv⟩, hpage⟩
  · obtain ⟨v, hv, hserved⟩ := hcomposed.fails e (Except.ok.inj he)
    exact ⟨v, ⟨layering, hresolved, hv⟩, hserved⟩

end Session

end LayeredViews
