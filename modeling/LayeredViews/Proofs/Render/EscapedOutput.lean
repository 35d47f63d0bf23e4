import LayeredViews.Proofs.Cache.Stocked
import LayeredViews.Proofs.Cache.Transparent
import LayeredViews.Proofs.Html.Safe

/-!
# Escaped output — what the output of a render is made of

The output of a render that is completed is a sequence of pieces, each of which some node wrote, of a page that
this render ran (`output_pieces`).  A node writes its own text, or a value; and unless it is a raw one it
escapes the value.  So where no page that was run has a raw node, nothing in the output begins markup but what
the texts of these pages say, whatever the model holds and whatever went through the bag: `output_escaped`.
-/

namespace LayeredViews

open Template (Page Node)

/-! ### Raw nodes -/

/-- Shows a value as it is. -/
def Template.Node.isRaw : Node → Bool
  | .echo _ escaped _ => !escaped
  | _ => false

/-- No node at any depth of the page shows a value as it is. -/
def Template.Page.RawFree (page : Page) : Prop :=
  ∀ node ∈ page.nodes, node.isRaw = false

/-- What a page without raw nodes may write is one of its texts, or nothing in it begins markup. -/
theorem Template.Page.RawFree.text_or_safe {page : Page} (h : page.RawFree) {piece : String}
    (hwrites : page.MayWrite piece) : .text piece ∈ page.nodes ∨ Html.Safe piece := by
  obtain ⟨node, hnode, hpiece⟩ := hwrites
  cases hpiece with
  | text => exact Or.inl hnode
  | escaped value => exact Or.inr (Html.escape_safe value)
  | raw value =>
    have hraw := h _ hnode
    cases hraw

namespace Session

/-! ### Pieces -/

/-- A layer that a render has run: it is the page of a view that has been found, and has started. -/
structure Ran (s : Session) (cache : Option (PageCache Page)) (told : List Event) (layer : Layer) : Prop where
  fetched : s.Fetched cache told layer
  started : ∃ depth, .started layer.template depth ∈ told

/-- Each piece is one that a node of a page may write that has been run. -/
def Pieces (s : Session) (cache : Option (PageCache Page)) (told : List Event) (pieces : List String) : Prop :=
  ∀ piece ∈ pieces, ∃ layer, s.Ran cache told layer ∧ layer.page.MayWrite piece

/-- From wherever so much has been told, if it ends well, what it adds to the output are pieces. -/
def AddsPieces (s : Session) (cache : Option (PageCache Page)) (told : List Event) {α : Type} (x : Render α) :
    Prop :=
  ∀ st a st', ending x st = (.ok a, st') → s.Serving cache st → told ⊆ st.bench.events →
    s.Serving cache st' ∧ st.bench.events ⊆ st'.bench.events ∧
      ∃ pieces, s.Pieces cache st'.bench.events pieces ∧ ∀ sink limit text,
        Output.Carries sink limit text st.out → Output.Carries sink limit (text ++ String.join pieces) st'.out

variable {s : Session} {cache : Option (PageCache Page)} {told more : List Event}

theorem Ran.mono {layer : Layer} (h : s.Ran cache told layer) (hmore : told ⊆ more) :
    s.Ran cache more layer := by
  obtain ⟨depth, hstarted⟩ := h.started
  exact ⟨h.fetched.mono hmore, depth, hmore hstarted⟩

theorem Pieces.mono {pieces : List String} (h : s.Pieces cache told pieces) (hmore : told ⊆ more) :
    s.Pieces cache more pieces := by
  intro piece hpiece
  obtain ⟨layer, hran, hwrites⟩ := h piece hpiece
  exact ⟨layer, hran.mono hmore, hwrites⟩

theorem Pieces.append {pieces others : List String} (h : s.Pieces cache told pieces)
    (h' : s.Pieces cache told others) : s.Pieces cache told (pieces ++ others) :=
  fun piece hpiece => (List.mem_append.mp hpiece).elim (h piece) (h' piece)

/-! ### Steps of pages -/

/-- A step that leaves the bench and the output as they are adds no piece. -/
theorem addsPieces_of_unchanged {α : Type} {x : Render α}
    (hx : ∀ st a st', ending x st = (.ok a, st') → st'.bench = st.bench ∧ st'.out = st.out) :
    s.AddsPieces cache told x := by
  intro st a st' hend hserving _
  obtain ⟨hbench, hout⟩ := hx st a st' hend
  unfold Serving
  rw [hbench, hout]
  refine ⟨hserving, List.Subset.refl _, [], nofun, fun sink limit text h => ?_⟩
  simpa using h

/-- Writing adds the text as a piece, if a layer that may write it is running. -/
theorem writeText_addsPieces {depth : Nat} {layer : Layer} {text : String}
    (hrunning : Render.Running (s.Fetched cache) told depth layer) (hwrites : layer.page.MayWrite text) :
    s.AddsPieces cache told (Render.writeText text) := by
  intro st a st' hend hserving htold
  have hran : s.Ran cache st.bench.events layer :=
    ⟨hrunning.known.mono htold, depth, htold hrunning.started⟩
  rw [Render.ending_writeText] at hend
  obtain ⟨hresult, rfl⟩ := Prod.mk.inj hend
  refine ⟨hserving, List.Subset.refl _, [text], fun piece hpiece => ?_, fun sink limit before h => ?_⟩
  · obtain rfl := List.mem_singleton.mp hpiece
    exact ⟨layer, hran, hwrites⟩
  rcases h.write text with ⟨out, hout, h'⟩ | ⟨-, out, hout⟩ <;> rw [hout] at hresult ⊢
  · simpa using h'
  · cases hresult

/-- Once a layer has started, what follows knows that. -/
theorem noteStart_addsPieces {depth : Nat} {layer : Layer} {α : Type} {x : Render α}
    (hx : ∀ more, told ⊆ more → .started layer.template depth ∈ more → s.AddsPieces cache more x) :
    s.AddsPieces cache told (Render.noteStart layer.template depth >>= fun _ => x) := by
  intro st a st' hend hserving htold
  have hevents := st.bench.events_note (.started layer.template depth)
  have hkeeps : st.bench.events ⊆ (st.bench.note (.started layer.template depth)).events :=
    hevents.symm ▸ List.subset_append_left _ _
  have hstarted : .started layer.template depth ∈ (st.bench.note (.started layer.template depth)).events := by
    rw [hevents]
    simp [besidesCompiling]
  have hserving' : s.Serving cache (st.note (.started layer.template depth)) :=
    Bench.Stocked.mono hserving hkeeps
  obtain ⟨hserving'', hkeeps', hpieces⟩ := hx _ (List.Subset.trans htold hkeeps) hstarted
    (st.note (.started layer.template depth)) a st' hend hserving' (List.Subset.refl _)
  exact ⟨hserving'', List.Subset.trans hkeeps hkeeps', hpieces⟩

/-- Coming to the layers of a partial view adds no piece, and all of them are fetched. -/
theorem partialLayers_addsPieces {name : String} {α : Type} {f : List Layer → Render α}
    (hf : ∀ more layers, (∀ layer ∈ layers, s.Fetched cache more layer) →
      s.AddsPieces cache more (f layers)) :
    s.AddsPieces cache told (s.partialLayers name >>= f) := by
  intro st a st' hend hserving _
  obtain ⟨r, st₁, hlayers, hserving₁, hkeeps, hpages, -⟩ :=
    partialLayers_served (Bench.serves_stocked s.finder cache) name st hserving
  have hout : st₁.out = st.out := by
    have hapart := (Apart.partialLayers s name).out_eq st
    rwa [hlayers] at hapart
  rcases r with e | layers
  · rw [ending_bind_error hlayers] at hend
    cases hend
  have hfetched : ∀ layer ∈ layers, s.Fetched cache st₁.bench.events layer := by
    intro layer hlayer
    obtain ⟨v, -, htemplate, hserved⟩ := hpages layers rfl layer hlayer
    exact fetched_of_served htemplate hserved
  rw [ending_bind_ok hlayers] at hend
  obtain ⟨hserving', hkeeps', hpieces⟩ :=
    hf _ layers hfetched st₁ a st' hend hserving₁ (List.Subset.refl _)
  rw [hout] at hpieces
  exact ⟨hserving', List.Subset.trans hkeeps hkeeps', hpieces⟩

theorem addsPieces_closedOn (s : Session) (cache : Option (PageCache Page)) :
    Render.ClosedOn s (s.Fetched cache) fun told _ => s.AddsPieces cache told where
  known_mono := Fetched.mono
  pure told depth α a := addsPieces_of_unchanged fun st a' st' h => by cases h; exact ⟨rfl, rfl⟩
  bind {told depth α β x f} hx hf := by
    intro st b st'' hend hserving htold
    rw [ending_bind] at hend
    rcases hr : ending x st with ⟨e | a, st'⟩ <;> rw [hr] at hend
    · cases hend
    obtain ⟨hserving', hkeeps, pieces, hpieces, hcarries⟩ := hx st a st' hr hserving htold
    obtain ⟨hserving'', hkeeps', others, hothers, hcarries'⟩ :=
      hf a st' b st'' hend hserving' (List.Subset.trans htold hkeeps)
    refine ⟨hserving'', List.Subset.trans hkeeps hkeeps', pieces ++ others,
      (hpieces.mono hkeeps').append hothers, fun sink limit text h => ?_⟩
    have hjoin : text ++ String.join (pieces ++ others) =
        text ++ String.join pieces ++ String.join others := by
      simp [String.append_assoc]
    rw [hjoin]
    exact hcarries' sink limit _ (hcarries sink limit text h)
  fault _ _ st a st' h := by cases h
  withBag told depth α f hf st := hf st.bag st
  setBag told depth f := addsPieces_of_unchanged fun st a st' h => by cases h; exact ⟨rfl, rfl⟩
  write hrunning hwrites := writeText_addsPieces hrunning hwrites
  check told depth := by
    refine addsPieces_of_unchanged fun st a st' h => ?_
    rw [Render.ending_checkCancelled] at h
    split_ifs at h
    · cases h
    · cases h
      exact ⟨rfl, rfl⟩
  start _ _ hx := noteStart_addsPieces hx
  partialLayers _ _ hf := partialLayers_addsPieces hf

/-! ### The render -/

/-- Layers that are done have added pieces. -/
theorem execute_completed {layers : List Layer} {st st' : State} {sink : Sink} {limit bytes : Nat}
    (hserving : s.Serving cache st) (hfetched : ∀ layer ∈ layers, s.Fetched cache st.bench.events layer)
    (hout : st.out = .on sink limit) (h : ending (s.execute layers) st = (.ok (.completed bytes), st')) :
    ∃ pieces, s.Pieces cache st'.bench.events pieces ∧
      st'.out.sink.received = sink.received ++ String.join pieces := by
  rw [ending_execute] at h
  rcases hr : ending (Render.runLayers s.scene layers) { st with phase := .executing } with
    ⟨e | u, st₁⟩ <;> rw [hr] at h
  · obtain ⟨-, ⟨f, -, hfailed⟩ | hfailed | ⟨fault, hfailed⟩⟩ := executionFailed_ends (s := s) e st₁ <;>
      (dsimp only at h; rw [h] at hfailed; cases hfailed)
  have hadds := (addsPieces_closedOn s cache).layers _ hfetched
  obtain ⟨-, -, pieces, hpieces, hcarries⟩ := hadds _ u st₁ hr hserving (List.Subset.refl _)
  have hcarried : Output.Carries sink limit (String.join pieces) st₁.out := by
    have hempty : Output.Carries sink limit "" (State.out { st with phase := .executing }) :=
      hout ▸ Output.on_carries sink limit
    simpa using hcarries sink limit "" hempty
  have hbench := (complete_ends st₁).1
  dsimp only at h
  rw [h] at hbench
  rcases complete_cases hcarried with ⟨st₂, hend, htook⟩ | ⟨-, fault, st₂, hend⟩ <;> rw [h] at hend
  · obtain ⟨-, rfl⟩ := Prod.mk.inj hend
    refine ⟨pieces, ?_, htook.received⟩
    rw [hbench]
    exact hpieces
  · cases hend

/-- What a completed render has sent are pieces. -/
theorem run_completed {sink : Sink} {flag : Bool} {bench : Bench} {bytes : Nat} {final : State}
    (h : ending s.run (s.start sink flag bench) = (.ok (.completed bytes), final)) :
    ∃ pieces, s.Pieces bench.cache final.bench.events pieces ∧
      final.out.sink.received = sink.received ++ String.join pieces := by
  have hserving : s.Serving bench.cache (s.start sink flag bench) := Bench.stocked_self s.finder bench _
  obtain ⟨r, st₁, hprepare, hserving₁, -, hpages, -⟩ :=
    prepare_served (Bench.serves_stocked s.finder bench.cache) (s.start sink flag bench) hserving
  have hout : st₁.out = .on sink s.settings.bufferLimit := by
    have hapart := s.out_prepare (s.start sink flag bench)
    rwa [hprepare] at hapart
  rw [run_eq] at h
  rcases r with e | (f | c) | layers
  · rw [ending_bind_error hprepare] at h
    cases h
  · rw [ending_bind_ok hprepare] at h
    obtain ⟨-, hshown | ⟨fault, hshown⟩⟩ := showFailure_ends f st₁ <;>
      (rw [show ending (showFailure f) st₁ = _ from h] at hshown; cases hshown)
  · rw [ending_bind_ok hprepare] at h
    cases h
  · rw [ending_bind_ok hprepare] at h
    refine execute_completed hserving₁ (fun layer hlayer => ?_) hout h
    obtain ⟨v, -, htemplate, hserved⟩ := hpages layers rfl layer hlayer
    exact fetched_of_served htemplate hserved

end Session

namespace Engine

variable (e : Engine) (mode : RenderMode) (view : String) (model : Json) (sink : Sink)

/-- The output of a completed render is a sequence of pieces, each of which a node may write of a page that the
render has run. -/
theorem output_pieces {bytes : Nat} {before after : Phase} {final : Sink}
    (hcompleted : (e.render mode view model sink).1.response =
      .rendered (.ok (.completed bytes)) before after final) :
    ∃ pieces, (e.session mode view model).Pieces e.cache (e.render mode view model sink).1.journal pieces ∧
      final.received = sink.received ++ String.join pieces := by
  rw [render_eq] at hcompleted ⊢
  obtain ⟨hresult, -, -, rfl⟩ := Response.rendered.inj hcompleted
  rcases hrun : ending (e.session mode view model).run
    ((e.session mode view model).start sink e.cancelled e.bench) with ⟨r, st⟩
  rw [hrun] at hresult
  obtain rfl : r = .ok (.completed bytes) := hresult
  obtain ⟨pieces, hpieces, hreceived⟩ := Session.run_completed hrun
  exact ⟨pieces, hpieces.mono st.bench.events_subset_journal, hreceived⟩

/-- If no page that a completed render has run shows values as they are, its output is a sequence of pieces, each
of which is a text of such a page, or has nothing in it that begins markup. -/
theorem output_escaped {bytes : Nat} {before after : Phase} {final : Sink}
    (hcompleted : (e.render mode view model sink).1.response =
      .rendered (.ok (.completed bytes)) before after final)
    (hraw : ∀ layer, (e.session mode view model).Ran e.cache (e.render mode view model sink).1.journal layer →
      layer.page.RawFree) :
    ∃ pieces, final.received = sink.received ++ String.join pieces ∧ ∀ piece ∈ pieces,
      (∃ layer, (e.session mode view model).Ran e.cache (e.render mode view model sink).1.journal layer ∧
        .text piece ∈ layer.page.nodes) ∨ Html.Safe piece := by
  obtain ⟨pieces, hpieces, hreceived⟩ := e.output_pieces mode view model sink hcompleted
  refine ⟨pieces, hreceived, fun piece hpiece => ?_⟩
  obtain ⟨layer, hran, hwrites⟩ := hpieces piece hpiece
  rcases (hraw layer hran).text_or_safe hwrites with htext | hsafe
  · exact Or.inl ⟨layer, hran, htext⟩
  · exact Or.inr hsafe

/-- A page that shows a value after a tag. -/
def boldPage : Catalog := pageOnly "<b>\x7b\x7b model.x \x7d\x7d"

/-- A value that is markup itself. -/
def markup : Json := .obj [("x", .str "<i>&\"")]

/-- The page, compiled. -/
def boldPageLayer : Layer where
  template := "page.html"
  role := .leaf
  page := .text "<b>" (.echo ⟨.model, ["x"], "model.x"⟩ true ⟨1, 4⟩ .done)

/-- A layer that has been run is the one page that there is. -/
theorem page_of_ran_boldPage {journal : List Event} {layer : Layer}
    (h : ((new .default boldPage).session mode view model).Ran (new .default boldPage).cache journal layer) :
    layer.page = boldPageLayer.page := by
  obtain ⟨v, hfound, -, hpage⟩ := h.fetched
  obtain rfl := pageOnly_offers hfound.offers
  cases hpage with
  | cached hc => cases hc
  | compiled hcompiled =>
    have hpage : View.compiled ⟨⟨"", "page"⟩, "html", .text "<b>\x7b\x7b model.x \x7d\x7d"⟩ =
        .ok boldPageLayer.page := by
      decide +kernel
    exact Except.ok.inj (hcompiled.symm.trans hpage)

/-- The page and the value are written one after the other. -/
theorem runLayers_boldPage {scene : Scene} (hmodel : scene.model = markup) (hheeds : scene.heedsFlag = false)
    {st : State} {limit : Nat} (hout : st.out = .on .accepting limit) :
    ∃ text st', ending (Render.runLayers scene [boldPageLayer]) st = (.ok (), st') ∧
      Output.Carries .accepting limit text st'.out := by
  have haccepting : Sink.accepting.Accepting := ⟨fun _ => rfl, rfl⟩
  have hcheck : ending (Render.checkCancelled scene.heedsFlag) st = (.ok (), st) := by
    rw [Render.ending_checkCancelled, hheeds]
    rfl
  let st₁ := st.note (.started boldPageLayer.template scene.depth)
  have hstart : ending (Render.noteStart boldPageLayer.template scene.depth) st = (.ok (), st₁) := rfl
  have hcarries₁ : Output.Carries .accepting limit "" st₁.out := hout ▸ Output.on_carries .accepting limit
  obtain ⟨out₂, htext, hcarries₂⟩ := Render.ending_writeText_accepting hcarries₁ haccepting "<b>"
  have hcarries₂ : Output.Carries .accepting limit ("" ++ "<b>") (st₁.withOut out₂).out := hcarries₂
  obtain ⟨out₃, hvalue, hcarries₃⟩ :=
    Render.ending_writeText_accepting hcarries₂ haccepting (Html.escape "<i>&\"")
  let cx : PageContext := ⟨scene, boldPageLayer.template, none⟩
  have hecho : ending (Render.echo cx [] ⟨.model, ["x"], "model.x"⟩ true ⟨1, 4⟩) (st₁.withOut out₂) =
      (.ok (), st₁.withOut out₃) := by
    unfold Render.echo
    rw [hmodel]
    exact hvalue
  have hpage : ending (Render.runPage cx boldPageLayer.page []) st₁ = (.ok 0, st₁.withOut out₃) :=
    (ending_bind_ok htext _).trans (ending_bind_ok hecho _)
  have hlayer : ending (Render.runLayer scene boldPageLayer none) st = (.ok 0, st₁.withOut out₃) :=
    (ending_bind_ok hcheck _).trans ((ending_bind_ok hstart _).trans hpage)
  exact ⟨_, _, ending_bind_ok hlayer _, hcarries₃⟩

theorem boldPage_completed :
    ∃ bytes before after final,
      ((new .default boldPage).render .uninterrupted "page" markup .accepting).1.response =
        .rendered (.ok (.completed bytes)) before after final := by
  generalize he : new .default boldPage = e
  let s := e.session .uninterrupted "page" markup
  let start := s.start .accepting e.cancelled e.bench
  have hprepare : (ending s.prepare start).1 = .ok (.ok [boldPageLayer]) := by
    subst he
    decide +kernel
  have hout := s.out_prepare start
  rcases hr : ending s.prepare start with ⟨r, st⟩
  rw [hr] at hprepare hout
  obtain rfl : r = .ok (.ok [boldPageLayer]) := hprepare
  have hscene : s.scene.model = markup ∧ s.scene.heedsFlag = false := by
    subst he
    exact ⟨rfl, rfl⟩
  have hexecuting : (State.out { st with phase := .executing }) = .on .accepting e.settings.bufferLimit := hout
  obtain ⟨text, st', hlayers, hcarries⟩ := runLayers_boldPage hscene.1 hscene.2 hexecuting
  have hrun : ending s.run start = ending Session.complete st' := by
    rw [Session.run_eq, ending_bind_ok hr]
    unfold Session.proceed
    dsimp only
    rw [Session.ending_execute, hlayers]
  rcases Session.complete_cases hcarries with ⟨final, hend, -⟩ | ⟨hn, -⟩
  · exact ⟨_, _, _, _, response_of_ending (hrun.trans hend)⟩
  · exact absurd ⟨fun _ => rfl, rfl⟩ hn

theorem output_escaped_of_markup :
    ∃ bytes before after final,
      ((new .default boldPage).render .uninterrupted "page" markup .accepting).1.response =
          .rendered (.ok (.completed bytes)) before after final ∧
        ∃ pieces, final.received = Sink.accepting.received ++ String.join pieces ∧
          ∀ piece ∈ pieces, piece = "<b>" ∨ Html.Safe piece := by
  obtain ⟨bytes, before, after, final, hresponse⟩ := boldPage_completed
  have hpages := fun journal layer => @page_of_ran_boldPage .uninterrupted "page" markup journal layer
  generalize new .default boldPage = e at hresponse hpages ⊢
  have hraw : ∀ layer, (e.session .uninterrupted "page" markup).Ran e.cache
      (e.render .uninterrupted "page" markup .accepting).1.journal layer → layer.page.RawFree := by
    intro layer hran
    unfold Page.RawFree
    rw [hpages _ layer hran]
    decide
  obtain ⟨pieces, hreceived, hpieces⟩ :=
    output_escaped e .uninterrupted "page" markup .accepting hresponse hraw
  refine ⟨bytes, before, after, final, hresponse, pieces, hreceived, fun piece hpiece => ?_⟩
  rcases hpieces piece hpiece with ⟨layer, hran, htext⟩ | hsafe
  · rw [hpages _ layer hran] at htext
    exact Or.inl (by simpa [boldPageLayer, Page.nodes] using htext)
  · exact Or.inr hsafe

end Engine

end LayeredViews
