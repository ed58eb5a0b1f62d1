import Whisker.Engine

/-!
# Runs of an engine

A call is one request with its arguments, and an engine is reachable if some calls lead to it from a new engine, each of
them succeeding or failing. A request is a program over a mutable engine; `Call.outcome` is the same request as a pure
function that answers a whole engine or an error. The two agree on every engine, and from this the results about
failures and about runs follow.

An engine keeps a chart together with what is computed from it: the type that the registry has for its name and its
layout on the viewport. Requests renew some of these and keep the others, and one of them changes the chart without
checking its rules again. In every reachable engine the parts still fit: a new engine made from the chart would be the
same.
-/

namespace Whisker.Engine

variable {α : Type} [Scalar α] [NumberText α] [Circular α]

inductive Call (α : Type) where
  | setViewport (viewport : Viewport)
  | setChart (chart : Chart α)
  | setData (dataset : Nat) (data : List (Datum α))
  | pushDataset (dataset : Dataset α)
  | update
  | hoverAt (x y : α)
  | clearHover
  | render
  | renderAnimated (elapsed : α)

namespace Call

def request : Call α → Request α Unit
  | setViewport v => Engine.setViewport v
  | setChart c => Engine.setChart c
  | setData i data => Engine.setData i data
  | pushDataset d => Engine.pushDataset d
  | update => Engine.update
  | hoverAt x y => discard (Engine.hoverAt x y)
  | clearHover => Engine.clearHover
  | render => Engine.render
  | renderAnimated t => Engine.renderAnimated t

/-- Runs a call; the engine that it leaves behind is part of the result, whether it succeeds or fails. -/
def run (c : Call α) (e : Engine α) : EStateM.Result Error (Engine α) Unit := c.request.run e

def after (c : Call α) (e : Engine α) : Engine α :=
  match c.run e with
  | .ok _ e' => e'
  | .error _ e' => e'

end Call

/-- Some calls lead to the engine from a new one. -/
inductive Reachable : Engine α → Prop
  | start {renderer : Renderer α} {registry : Registry} {setup : Setup α} {e : Engine α}
      (h : Engine.start renderer registry setup = .ok e) : Reachable e
  | call {e : Engine α} (c : Call α) (h : Reachable e) : Reachable (c.after e)

def relaid (e : Engine α) (t : ChartType) (c : Chart α) (v : Viewport) : Result (Engine α) := do
  return { e with chartType := t, chart := c, viewport := v, layout := ← t.kind.layout c v false }

def drawn (e : Engine α) (frame : Result (Frame α)) : Result (Engine α) := do
  return { e with renderer := ← e.renderer.render (← frame) }

/-- What a call makes of an engine. -/
def Call.outcome (e : Engine α) : Call α → Result (Engine α)
  | .setViewport v => do
    v.validate
    e.relaid e.chartType e.chart v
  | .setChart c => do
    c.validate
    return { ← e.relaid (← e.registry.resolve c.chartType) c e.viewport with hovered := none }
  | .setData i data => do
    let d ← e.chart.dataset i
    let c := { e.chart with datasets := e.chart.datasets.set i { d with data } }
    return { ← e.relaid e.chartType c e.viewport with hovered := none }
  | .pushDataset d => do
    let c := { e.chart with datasets := e.chart.datasets ++ [d] }
    c.validate
    return { ← e.relaid e.chartType c e.viewport with hovered := none }
  | .update => e.relaid e.chartType e.chart e.viewport
  | .hoverAt x y => .ok { e with hovered := e.elementAt? x y }
  | .clearHover => .ok { e with hovered := none }
  | .render => e.drawn e.frame
  | .renderAnimated t => e.drawn (e.animatedFrame t)

/-- A result takes effect on an engine all at once or not at all. -/
def settle (e : Engine α) : Result (Engine α) → EStateM.Result Error (Engine α) Unit
  | .ok e' => .ok () e'
  | .error err => .error err e

section

omit [Scalar α] [NumberText α] [Circular α]

theorem run_get_bind {γ : Type} (k : Engine α → Request α γ) (e : Engine α) :
    (get >>= k : Request α γ).run e = (k e).run e := rfl

/-- A request that starts with a question fails with it, or goes on with the answer. -/
theorem settle_bind {β : Type} (r : Result β) {k : β → Request α Unit} {f : β → Result (Engine α)}
    {e : Engine α} (h : ∀ v, (k v).run e = e.settle (f v)) :
    (Request.ofResult r >>= k).run e = e.settle (r >>= f) := by
  cases r with
  | error err => rfl
  | ok v => exact h v

end

/-- Committing a chart lays it out again and forgets what was hovered. -/
theorem commit_run (c : Chart α) (e : Engine α) :
    (commit c).run e = e.settle (do return { ← e.relaid e.chartType c e.viewport with hovered := none }) := by
  rw [commit, run_get_bind, relaid, bind_assoc]
  exact settle_bind _ fun _ => rfl

theorem draw_run (frame : Result (Frame α)) (e : Engine α) : (draw frame).run e = e.settle (e.drawn frame) := by
  rw [draw, run_get_bind, drawn]
  exact settle_bind _ fun _ => settle_bind _ fun _ => rfl

namespace Call

/-- No assignment of a request comes before its last point of failure. -/
theorem run_eq_settle (c : Call α) (e : Engine α) : c.run e = e.settle (c.outcome e) := by
  cases c with
  | setViewport v =>
    rw [run, request, Engine.setViewport, outcome]
    exact settle_bind _ fun _ => settle_bind _ fun _ => rfl
  | setChart c =>
    simp only [run, request, Engine.setChart, outcome, relaid, bind_assoc, pure_bind]
    exact settle_bind _ fun _ => settle_bind _ fun _ => settle_bind _ fun _ => rfl
  | setData i data =>
    rw [run, request, Engine.setData, run_get_bind, outcome]
    exact settle_bind _ fun _ => commit_run _ e
  | pushDataset d =>
    rw [run, request, Engine.pushDataset, run_get_bind, outcome]
    exact settle_bind _ fun _ => commit_run _ e
  | update =>
    rw [run, request, Engine.update, run_get_bind, outcome, relaid]
    exact settle_bind _ fun _ => rfl
  | hoverAt x y => rfl
  | clearHover => rfl
  | render =>
    rw [run, request, Engine.render, run_get_bind, outcome]
    exact draw_run _ e
  | renderAnimated t =>
    rw [run, request, Engine.renderAnimated, run_get_bind, outcome]
    exact draw_run _ e

theorem after_of_outcome_ok {c : Call α} {e e' : Engine α} (h : c.outcome e = .ok e') : c.after e = e' := by
  rw [after, run_eq_settle, h]
  rfl

theorem after_of_outcome_error {c : Call α} {e : Engine α} {err : Error} (h : c.outcome e = .error err) :
    c.after e = e := by
  rw [after, run_eq_settle, h]
  rfl

/-- A call that fails leaves the whole engine as it was, the renderer with what it has drawn included. -/
theorem failed_run_keeps_engine (c : Call α) (e e' : Engine α) (err : Error) (h : c.run e = .error err e') :
    e' = e := by
  rw [run_eq_settle] at h
  cases ho : c.outcome e with
  | ok e'' =>
    rw [ho] at h
    cases h
  | error err' =>
    rw [ho] at h
    cases h
    rfl

def error? (c : Call α) (e : Engine α) : Option Error :=
  match c.run e with
  | .ok _ _ => none
  | .error err _ => some err

/-- A call that is refused answers its error, whatever the engine has become. -/
theorem run_of_error? {c : Call α} {e : Engine α} {err : Error} (h : c.error? e = some err) :
    ∃ e', c.run e = .error err e' := by
  unfold error? at h
  split at h
  · cases h
  · rename_i err' e' hr
    cases h
    exact ⟨e', hr⟩

end Call

def plainAxis : AxisOptions Float :=
  { AxisOptions.default with
    min := some 0
    max := some 1
    ticks := { TickOptions.default with display := false }
    grid := { Grid.default with display := false } }

def plainChart : Chart Float :=
  ⟨"lineWithErrorBars", ["a"], [.ofData [.ofY 0.5]], { ChartOptions.default with axes := .const plainAxis }⟩

/-- A chart that keeps all rules but whose y axis is too long for its numbers. -/
def endlessChart : Chart Float :=
  { plainChart with options := { plainChart.options with axes :=
      { plainChart.options.axes with y := { plainAxis with min := some (-1e308), max := some 1e308 } } } }

/-- The layout of the endless chart is the last point of failure of its request. -/
theorem refused_chart_keeps_engine :
    ∃ e e' : Engine Float, start (.drawing none) .standard ⟨⟨300, 200⟩, plainChart⟩ = .ok e ∧
      (Call.setChart endlessChart).run e = .error (.data .scaleDomain) e' ∧ e' = e := by
  have hs : (start (.drawing none) .standard ⟨⟨300, 200⟩, plainChart⟩).toOption.bind
      (Call.setChart endlessChart).error? = some (.data .scaleDomain) := by decide +kernel
  obtain ⟨e, he, hf⟩ := Option.bind_eq_some_iff.1 hs
  obtain ⟨e', hr⟩ := Call.run_of_error? hf
  have he : start (.drawing none) .standard ⟨⟨300, 200⟩, plainChart⟩ = .ok e := toOption_eq_some.1 he
  exact ⟨e, e', he, hr, Call.failed_run_keeps_engine _ e e' _ hr⟩

end Whisker.Engine

namespace Whisker

variable {α : Type} [Scalar α]

/-- The rules for datasets do not look at their data. -/
theorem Dataset.validate_set_data {style : Style.Overrides α} {ds : List (Dataset α)} {i : Nat} {d : Dataset α}
    (hd : ds[i]? = some d) (data : List (Datum α)) (h : ∀ p ∈ ds.zipIdx, p.1.validate style p.2 = .ok ()) :
    ∀ p ∈ (ds.set i { d with data }).zipIdx, p.1.validate style p.2 = .ok () := by
  rintro ⟨d', k⟩ hp
  rw [List.mk_mem_zipIdx_iff_getElem?, List.getElem?_set] at hp
  split at hp
  · rename_i hik
    split at hp
    · cases hp
      exact h (d, k) (List.mk_mem_zipIdx_iff_getElem?.2 (hik ▸ hd))
    · cases hp
  · exact h (d', k) (List.mk_mem_zipIdx_iff_getElem?.2 hp)

omit [Scalar α] in
theorem Chart.getElem?_of_dataset {c : Chart α} {i : Nat} {d : Dataset α} (h : c.dataset i = .ok d) :
    c.datasets[i]? = some d := by
  unfold dataset at h
  split at h
  · rename_i d' hd'
    cases h
    exact hd'
  · cases h

/-- New data for one dataset keep a chart valid. -/
theorem Chart.validate_setData {c : Chart α} {i : Nat} {d : Dataset α} (hd : c.dataset i = .ok d)
    (h : c.validate = .ok ()) (data : List (Datum α)) :
    validate { c with datasets := c.datasets.set i { d with data } } = .ok () := by
  simp only [validate, seq_eq_ok, forM_eq_ok] at h ⊢
  obtain ⟨hname, hoptions, hstyle, hdatasets⟩ := h
  exact ⟨hname, hoptions, hstyle, Dataset.validate_set_data (getElem?_of_dataset hd) data hdatasets⟩

/-- A registry answers a name with a type of that name. -/
theorem Registry.name_of_resolve {r : Registry} {name : String} {t : ChartType} (h : r.resolve name = .ok t) :
    t.name = name := by
  unfold resolve at h
  split at h
  · cases h
  · rename_i u hu
    have hn : u.name = name := by simpa using List.find?_some hu
    split at h
    · cases h
    · split at h
      · cases h
      · cases h
        exact hn

namespace Engine

variable [NumberText α] [Circular α]

/-- What an engine holds fits together. -/
structure Coherent (e : Engine α) : Prop where
  viewport : e.viewport.validate = .ok ()
  chart : e.chart.validate = .ok ()
  chartType : e.registry.resolve e.chart.chartType = .ok e.chartType
  layout : e.chartType.kind.layout e.chart e.viewport false = .ok e.layout

/-- A new engine is coherent: its type is the registered one and its layout that of its chart. -/
theorem coherent_start {renderer : Renderer α} {registry : Registry} {setup : Setup α} {e : Engine α}
    (h : start renderer registry setup = .ok e) : e.Coherent := by
  simp only [start, seq_eq_ok] at h
  obtain ⟨hviewport, hchart, h⟩ := h
  obtain ⟨t, ht, h⟩ := bind_eq_ok.1 h
  obtain ⟨l, hl, h⟩ := bind_eq_ok.1 h
  cases h
  exact ⟨hviewport, hchart, ht, hl⟩

/-- Laying out again succeeds with the parts given and the layout that belongs to them. -/
theorem relaid_eq_ok {e e' : Engine α} {t : ChartType} {c : Chart α} {v : Viewport} (h : e.relaid t c v = .ok e') :
    ∃ l, t.kind.layout c v false = .ok l ∧
      e' = { e with chartType := t, chart := c, viewport := v, layout := l } := by
  obtain ⟨l, hl, h⟩ := bind_eq_ok.1 h
  cases h
  exact ⟨l, hl, rfl⟩

/-- A new chart takes the place of the old one, and nothing is hovered on it yet. -/
theorem replaced_eq_ok {e e' : Engine α} {t : ChartType} {c : Chart α} {v : Viewport}
    (h : (do return { ← e.relaid t c v with hovered := none } : Result (Engine α)) = .ok e') :
    ∃ l, t.kind.layout c v false = .ok l ∧
      e' = { e with chartType := t, chart := c, viewport := v, layout := l, hovered := none } := by
  obtain ⟨e₁, h₁, h⟩ := bind_eq_ok.1 h
  obtain ⟨l, hl, rfl⟩ := relaid_eq_ok h₁
  cases h
  exact ⟨l, hl, rfl⟩

/-- Drawing changes what the renderer holds. -/
theorem drawn_eq_ok {e e' : Engine α} {frame : Result (Frame α)} (h : e.drawn frame = .ok e') :
    ∃ renderer, e' = { e with renderer } := by
  obtain ⟨f, _, h⟩ := bind_eq_ok.1 h
  obtain ⟨renderer, _, h⟩ := bind_eq_ok.1 h
  cases h
  exact ⟨renderer, rfl⟩

/-- Drawing touches the renderer only, so it keeps an engine coherent. -/
theorem Coherent.drawn {e e' : Engine α} (h : e.Coherent) {frame : Result (Frame α)} (hd : e.drawn frame = .ok e') :
    e'.Coherent := by
  obtain ⟨_, rfl⟩ := drawn_eq_ok hd
  exact ⟨h.viewport, h.chart, h.chartType, h.layout⟩

/-- A successful call keeps an engine coherent. -/
theorem Coherent.outcome {e e' : Engine α} (h : e.Coherent) {c : Call α} (ho : c.outcome e = .ok e') : e'.Coherent := by
  cases c with
  | setViewport v =>
    obtain ⟨hv, ho⟩ := seq_eq_ok.1 ho
    obtain ⟨l, hl, rfl⟩ := relaid_eq_ok ho
    exact ⟨hv, h.chart, h.chartType, hl⟩
  | setChart c =>
    obtain ⟨hc, ho⟩ := seq_eq_ok.1 ho
    obtain ⟨t, ht, ho⟩ := bind_eq_ok.1 ho
    obtain ⟨l, hl, rfl⟩ := replaced_eq_ok ho
    exact ⟨h.viewport, hc, ht, hl⟩
  | setData i data =>
    obtain ⟨d, hd, ho⟩ := bind_eq_ok.1 ho
    obtain ⟨l, hl, rfl⟩ := replaced_eq_ok ho
    -- The name of the chart is the old one, so its type needs no new search.
    exact ⟨h.viewport, Chart.validate_setData hd h.chart data, h.chartType, hl⟩
  | pushDataset d =>
    obtain ⟨hc, ho⟩ := seq_eq_ok.1 ho
    obtain ⟨l, hl, rfl⟩ := replaced_eq_ok ho
    exact ⟨h.viewport, hc, h.chartType, hl⟩
  | update =>
    obtain ⟨l, hl, rfl⟩ := relaid_eq_ok ho
    exact ⟨h.viewport, h.chart, h.chartType, hl⟩
  | hoverAt x y =>
    cases ho
    exact ⟨h.viewport, h.chart, h.chartType, h.layout⟩
  | clearHover =>
    cases ho
    exact ⟨h.viewport, h.chart, h.chartType, h.layout⟩
  | render => exact h.drawn ho
  | renderAnimated t => exact h.drawn ho

/-- So does any call, whether it succeeds or fails. -/
theorem Coherent.after {e : Engine α} (h : e.Coherent) (c : Call α) : (c.after e).Coherent := by
  cases ho : c.outcome e with
  | ok e' =>
    rw [Call.after_of_outcome_ok ho]
    exact h.outcome ho
  | error err =>
    rw [Call.after_of_outcome_error ho]
    exact h

/-- In every run, whatever calls fail on the way, the engine stays coherent. -/
theorem Reachable.coherent {e : Engine α} (h : e.Reachable) : e.Coherent := by
  induction h with
  | start h => exact coherent_start h
  | call c _ ih => exact ih.after c

/-- A coherent engine can be made anew from its own registry, chart and viewport. -/
theorem Coherent.restart {e : Engine α} (h : e.Coherent) (renderer : Renderer α) :
    start renderer e.registry ⟨e.viewport, e.chart⟩ = .ok { e with renderer, hovered := none } := by
  rw [start, seq_eq_ok]
  refine ⟨h.viewport, seq_eq_ok.2 ⟨h.chart, ?_⟩⟩
  refine bind_eq_ok.2 ⟨_, h.chartType, bind_eq_ok.2 ⟨_, h.layout, rfl⟩⟩

/-- Every engine that calls lead to is coherent, its type has the chart's name, and a new engine made from what it
holds succeeds and has the same type, chart, viewport and layout. -/
theorem reachable_engine_restarts (e : Engine α) (h : e.Reachable) :
    e.Coherent ∧ e.chartType.name = e.chart.chartType ∧
      ∀ renderer, start renderer e.registry ⟨e.viewport, e.chart⟩ = .ok { e with renderer, hovered := none } :=
  have hc := h.coherent
  ⟨hc, Registry.name_of_resolve hc.chartType, hc.restart⟩

/-- The plain chart with new data on a smaller canvas, after a call that fails. -/
def shrunk (e : Engine Float) : Engine Float :=
  (Call.setViewport ⟨0, 10⟩).after ((Call.setData 0 [.ofY 7]).after ((Call.setViewport ⟨120, 90⟩).after e))

theorem shrunk_engine_restarts :
    ∃ e : Engine Float, e.Reachable ∧ e.viewport = ⟨120, 90⟩ ∧ e.Coherent ∧ e.chartType.name = e.chart.chartType ∧
      ∀ renderer, start renderer e.registry ⟨e.viewport, e.chart⟩ = .ok { e with renderer, hovered := none } := by
  have hs : (start .counting .standard ⟨⟨300, 200⟩, plainChart⟩).toOption.map (·.shrunk.viewport) =
      some ⟨120, 90⟩ := by decide +kernel
  obtain ⟨e, he, hv⟩ := Option.map_eq_some_iff.1 hs
  have hr : e.shrunk.Reachable := .call _ (.call _ (.call _ (.start (toOption_eq_some.1 he))))
  exact ⟨e.shrunk, hr, hv, reachable_engine_restarts e.shrunk hr⟩

end Engine

end Whisker
