import LayeredViews.Render.Page

/-!
# Running layers — each layout around the next, the leaf innermost

A layout renders what it wraps wherever its page says so, any number of times.  If it never did,
the wrapped content follows its own output.
-/

namespace LayeredViews.Render

/-- Starts a layer's page from no loop variables. -/
def runLayer (scene : Scene) (layer : Layer) (body? : Option (Render Unit)) : Render Nat := do
  checkCancelled scene.heedsFlag
  noteStart layer.template scene.depth
  runPage ⟨scene, layer.template, body?⟩ layer.page []

/-- Runs layers, the outermost one first. -/
def runLayers (scene : Scene) : List Layer → Render Unit
  | [] => pure ()
  | [leaf] => do
    let _ ← runLayer scene leaf none
  | outer :: next :: others => do
    let rendered ← runLayer scene outer (some (runLayers scene (next :: others)))
    if rendered = 0 then runLayers scene (next :: others)

end LayeredViews.Render
