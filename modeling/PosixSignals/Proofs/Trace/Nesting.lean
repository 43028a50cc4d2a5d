import PosixSignals.Trace.Script

/-!
# Lines and the spans around them

Where a script never crosses two spans, what it writes can be read off its
tree without a stack: `Node.lines` takes every line it comes to with the
spans around it in its own thread, at no threshold at all. Running the script
keeps a stack instead, does not even create some of the spans at a low
threshold, and may leave any number of them by a panic. The two agree once
the lines and the spans above the threshold are left out, `written`; and every
node leaves the stack as it has found it, so no span is left out of turn.
-/

namespace PosixSignals.Trace

variable {t t' : Threshold} {around : List Span} {node : Node} {body script : List Node}
  {r : Recorder} {source : SpanSource} {lines lines' : List Line}

/-! ## What a tree says -/

mutual

/-- No two spans are crossed anywhere in a node. -/
def Node.wellNested : Node → Bool
  | .line .. => true
  | .span _ body => allWellNested body
  | .thread body => allWellNested body
  | .guarded body => allWellNested body
  | .panic => true
  | .crossed .. => false

def allWellNested : List Node → Bool
  | [] => true
  | node :: rest => node.wellNested && allWellNested rest

end

mutual

/-- Whether a node ends in a panic: one that nothing inside it has stopped. -/
def Node.panics : Node → Bool
  | .line .. => false
  | .span _ body => anyPanics body
  | .thread body => anyPanics body
  | .guarded _ => false
  | .panic => true
  | .crossed _ _ body => anyPanics body

def anyPanics : List Node → Bool
  | [] => false
  | node :: rest => node.panics || anyPanics rest

end

/-- The span that a source stands for, whether it is created or not. -/
def SpanSource.span? : SpanSource → Option Span
  | .always span => some span
  | .leveled span => some span
  | .disabled => none

mutual

/-- **The lines of a node**, in order of execution, each with the spans around it: those
around the node, outermost first, and those that it enters itself. A thread starts with
none. Crossed spans are left aside. -/
def Node.lines (around : List Span) : Node → List Line
  | .line level message => [⟨level, around, message⟩]
  | .span source body => linesOf (around ++ source.span?.toList) body
  | .thread body => linesOf [] body
  | .guarded body => linesOf around body
  | .panic => []
  | .crossed .. => []

/-- The lines of some nodes, up to the first that panics. -/
def linesOf (around : List Span) : List Node → List Line
  | [] => []
  | node :: rest => node.lines around ++ if node.panics then [] else linesOf around rest

end

mutual

/-- A node and all those inside it. -/
def Node.nodes : Node → List Node
  | .line level message => [.line level message]
  | .span source body => .span source body :: nodesOf body
  | .thread body => .thread body :: nodesOf body
  | .guarded body => .guarded body :: nodesOf body
  | .panic => [.panic]
  | .crossed outer inner body => .crossed outer inner body :: nodesOf body

def nodesOf : List Node → List Node
  | [] => []
  | node :: rest => node.nodes ++ nodesOf rest

end

mutual

theorem wellNested_of_mem_nodes {inside : Node} : ∀ {node : Node}, node.wellNested →
    inside ∈ node.nodes → inside.wellNested
  | .line .., hnest, hmem => by rwa [List.mem_singleton.1 hmem]
  | .span _ _, hnest, hmem => by
    rcases List.mem_cons.1 hmem with rfl | hmem
    · exact hnest
    · exact wellNested_of_mem_nodesOf hnest hmem
  | .thread _, hnest, hmem => by
    rcases List.mem_cons.1 hmem with rfl | hmem
    · exact hnest
    · exact wellNested_of_mem_nodesOf hnest hmem
  | .guarded _, hnest, hmem => by
    rcases List.mem_cons.1 hmem with rfl | hmem
    · exact hnest
    · exact wellNested_of_mem_nodesOf hnest hmem
  | .panic, hnest, hmem => by rwa [List.mem_singleton.1 hmem]
  | .crossed .., hnest, _ => absurd hnest Bool.false_ne_true

/-- Every node of a well-nested tree is well nested. -/
theorem wellNested_of_mem_nodesOf {inside : Node} : ∀ {body : List Node}, allWellNested body →
    inside ∈ nodesOf body → inside.wellNested
  | [], _, hmem => absurd hmem List.not_mem_nil
  | _ :: _, hnest, hmem => by
    obtain ⟨hnode, hrest⟩ := Bool.and_eq_true_iff.1 hnest
    rcases List.mem_append.1 hmem with hmem | hmem
    · exact wellNested_of_mem_nodes hnode hmem
    · exact wellNested_of_mem_nodesOf hrest hmem

end

/-! ## What a threshold lets through -/

def shownAmong (t : Threshold) (spans : List Span) : List Span := spans.filter (·.level.shown t)

/-- The line with the spans that the threshold lets through, and no others. -/
def Line.narrow (t : Threshold) (line : Line) : Line := { line with spans := line.shownSpans t }

/-- The lines that the threshold lets through, with their spans likewise. -/
def written (t : Threshold) (lines : List Line) : List Line :=
  (lines.filter (·.level.shown t)).map (·.narrow t)

/-- A line with all its spans as text, its line break included: the level, then each span
with its fields in braces if it has any, then a colon if there was a span at all. -/
def Line.text (line : Line) : String :=
  let label (span : Span) := "-" ++ escape "1" ++ escape "37" ++ span.name ++ escape "0" ++
    span.fields.elim "" fun text => "\x7b" ++ text ++ "\x7d"
  line.level.tag ++ String.join (line.spans.map label) ++
    (if line.spans.isEmpty then " " else ": ") ++ line.message ++ "\n"

@[simp] theorem written_append :
    written t (lines ++ lines') = written t lines ++ written t lines' := by
  simp [written]

@[simp] theorem written_nil : written t [] = [] := rfl

theorem shown_of_le {level : Level} (h : t.rank ≤ t'.rank) (hshown : level.shown t) :
    level.shown t' := by
  simp only [Level.shown, decide_eq_true_eq] at hshown ⊢
  exact Nat.le_trans hshown h

theorem rank_le_trace (t : Threshold) : t.rank ≤ Threshold.rank (some .trace) := by
  rcases t with - | ⟨- | -⟩ <;> decide

/-- A lower threshold lets the same through of what a higher one has let through. -/
theorem written_written (h : t.rank ≤ t'.rank) :
    written t (written t' lines) = written t lines := by
  have hboth : ∀ level : Level, (level.shown t && level.shown t') = level.shown t := by
    intro level
    cases hshown : level.shown t with
    | false => rfl
    | true => simp [shown_of_le h hshown]
  have hnarrow : ∀ line : Line, (line.narrow t').narrow t = line.narrow t := by
    intro line
    simp only [Line.narrow, Line.shownSpans, List.filter_filter, hboth]
  have hlevel : ∀ line : Line, (line.narrow t').level = line.level := fun _ => rfl
  simp only [written, List.filter_map, List.filter_filter, List.map_map, Function.comp_def, hlevel,
    hboth, hnarrow]

/-- A line is written as its text when the spans above the threshold are left out. -/
theorem render_narrow (line : Line) : line.render t ++ "\n" = (line.narrow t).text := by
  have hlabel : Span.render = fun span => "-" ++ escape "1" ++ escape "37" ++ span.name ++
      escape "0" ++ span.fields.elim "" fun text => "\x7b" ++ text ++ "\x7d" := by
    funext span
    unfold Span.render
    cases span.fields <;> rfl
  simp only [Line.render, Line.text, Line.narrow, ← hlabel]
  rfl

theorem render_eq (lines : List Line) :
    render t lines = String.join ((written t lines).map Line.text) := by
  simp only [render, written, List.map_map, Function.comp_def, render_narrow]

/-! ## The stack -/

/-- The spans entered, outermost first. -/
def Recorder.spans (r : Recorder) : List Span := (r.stack.map (·.span)).reverse

/-- The lines so far, in order of writing. -/
def Recorder.soFar (r : Recorder) : List Line := r.lines.reverse

@[simp] theorem Recorder.enter_none : r.enter none = (none, r) := rfl

@[simp] theorem Recorder.soFar_enter {span? : Option Span} : (r.enter span?).2.soFar = r.soFar := by
  cases span? <;> rfl

theorem Recorder.spans_enter (span? : Option Span) :
    (r.enter span?).2.spans = r.spans ++ span?.toList := by
  cases span? with
  | none => simp
  | some span => simp [Recorder.enter, Recorder.spans]

/-- **A span that is left with the stack as it was when it was entered is on top.** -/
theorem Recorder.leave_enter {span? : Option Span} {r' : Recorder}
    (h : r'.stack = (r.enter span?).2.stack) :
    r'.leave (r.enter span?).1 = (false, { r' with stack := r.stack }) := by
  cases span? with
  | none =>
    have hstack : r.stack = r'.stack := h.symm
    rw [hstack]
    rfl
  | some span =>
    have hstack : r'.stack = ⟨r.fresh, span⟩ :: r.stack := h
    simp [Recorder.enter, Recorder.leave, hstack]

/-- A span that is not created would not be shown. -/
theorem shownAmong_create (t : Threshold) (source : SpanSource) :
    shownAmong t (source.create t).toList = shownAmong t source.span?.toList := by
  cases source with
  | always span => rfl
  | disabled => rfl
  | leveled span =>
    simp only [SpanSource.create, SpanSource.span?]
    split
    · rfl
    · next hhidden => simp [shownAmong, hhidden]

/-- To enter a span is to have it around, as far as it is shown. -/
theorem shownAmong_enter (source : SpanSource) (h : shownAmong t r.spans = shownAmong t around) :
    shownAmong t (r.enter (source.create t)).2.spans =
      shownAmong t (around ++ source.span?.toList) := by
  have hcreated := shownAmong_create t source
  rw [Recorder.spans_enter]
  simp only [shownAmong, List.filter_append] at h hcreated ⊢
  rw [h, hcreated]

/-! ## Running a tree -/

/-- What a run from a recorder has come to: the stack is as before, it has panicked just
if `panics`, and of `lines` it has written what the threshold lets through. -/
structure Run.Follows (t : Threshold) (r : Recorder) (lines : List Line) (panics : Bool)
    (run : Run) : Prop where
  stack : run.recorder.stack = r.stack
  panicked : run.panicked = panics
  written : written t run.recorder.soFar = written t r.soFar ++ written t lines

/-- A line written inside the spans entered is written inside those around it. -/
theorem written_log {level : Level} {message : String}
    (h : shownAmong t r.spans = shownAmong t around) :
    written t (r.log level message).soFar =
      written t r.soFar ++ written t [⟨level, around, message⟩] := by
  have hline : Line.narrow t ⟨level, r.spans, message⟩ = Line.narrow t ⟨level, around, message⟩ :=
    congrArg (Line.mk level · message) h
  have hsofar : (r.log level message).soFar = r.soFar ++ [⟨level, r.spans, message⟩] :=
    List.reverse_cons
  rw [hsofar, written_append]
  simp only [Trace.written, List.filter_cons, List.filter_nil]
  split <;> simp only [List.map_cons, List.map_nil, hline]

mutual

/-- **What running a node comes to.** The spans entered and the spans around the node need
to agree only as far as they are shown. -/
theorem follows_runNode (t : Threshold) : ∀ (node : Node) (r : Recorder) (around : List Span),
    node.wellNested → shownAmong t r.spans = shownAmong t around →
      (runNode t node r).Follows t r (node.lines around) node.panics
  | .line level message, r, around, _, hspans => ⟨rfl, rfl, written_log hspans⟩
  | .span source body, r, around, hnest, hspans => by
    have hinner := follows_runNodes t body (r.enter (source.create t)).2
      (around ++ source.span?.toList) hnest (shownAmong_enter source hspans)
    have hleave := Recorder.leave_enter hinner.stack
    simp only [runNode, hleave]
    refine ⟨rfl, by simp [hinner.panicked, Node.panics], hinner.written.trans ?_⟩
    rw [Recorder.soFar_enter, Node.lines]
  | .thread body, r, around, hnest, _ => by
    have hinner := follows_runNodes t body { r with stack := [] } [] hnest rfl
    exact ⟨rfl, hinner.panicked, hinner.written⟩
  | .guarded body, r, around, hnest, hspans => by
    have hinner := follows_runNodes t body r around hnest hspans
    exact ⟨hinner.stack, rfl, hinner.written⟩
  | .panic, r, around, _, _ => ⟨rfl, rfl, by simp [runNode, Node.lines]⟩
  | .crossed .., _, _, hnest, _ => absurd hnest Bool.false_ne_true

/-- What running some nodes comes to. -/
theorem follows_runNodes (t : Threshold) : ∀ (body : List Node) (r : Recorder)
    (around : List Span), allWellNested body → shownAmong t r.spans = shownAmong t around →
      (runNodes t body r).Follows t r (linesOf around body) (anyPanics body)
  | [], r, around, _, _ => ⟨rfl, rfl, by simp [runNodes, linesOf]⟩
  | node :: rest, r, around, hnest, hspans => by
    obtain ⟨hnode, hrest⟩ := Bool.and_eq_true_iff.1 hnest
    have hfirst := follows_runNode t node r around hnode hspans
    simp only [runNodes, linesOf, anyPanics]
    rw [hfirst.panicked]
    cases hpanics : node.panics with
    | true =>
      -- the rest of the body is not reached
      exact ⟨hfirst.stack, by simp [hfirst.panicked, hpanics], by simpa using hfirst.written⟩
    | false =>
      have hspans' : shownAmong t (runNode t node r).recorder.spans = shownAmong t around := by
        rw [← hspans, Recorder.spans, hfirst.stack, Recorder.spans]
      have hothers := follows_runNodes t rest (runNode t node r).recorder around hrest hspans'
      refine ⟨hothers.stack.trans hfirst.stack, by simpa using hothers.panicked, ?_⟩
      simpa [hfirst.written] using hothers.written

end

/-! ## Scripts -/

/-- **What a script writes at a threshold is its tree, filtered.** -/
structure ShowsEnclosing (t : Threshold) (script : List Node) : Prop where
  /-- The text: every line reached whose level is within the threshold, with exactly the
  spans within it that enclose the line in its thread. -/
  text : (runScript t script).output t = String.join ((written t (linesOf [] script)).map Line.text)
  /-- The lines are those of a run that shows everything, filtered. -/
  filtered : written t (runScript t script).lines =
    written t (written (some .trace) (runScript (some .trace) script).lines)
  /-- Wherever a node is run, it leaves the stack as it was, and panics only if a panic
  inside it is not stopped. -/
  stack : ∀ node ∈ nodesOf script, ∀ r : Recorder,
    (runNode t node r).recorder.stack = r.stack ∧ (runNode t node r).panicked = node.panics
  /-- Wherever a span is entered, it is on top when it is left. -/
  leaves : ∀ source body, Node.span source body ∈ nodesOf script → ∀ r : Recorder,
    ((runNodes t body (r.enter (source.create t)).2).recorder.leave
      (r.enter (source.create t)).1).1 = false

theorem written_runScript (t : Threshold) (h : allWellNested script) :
    written t (runScript t script).lines = written t (linesOf [] script) :=
  (follows_runNodes t script {} [] h rfl).written

/-- **Lines show exactly the spans around them**: of a script in which no spans are
crossed, whatever panics and threads there are in it. -/
theorem shows_enclosing (t : Threshold) (script : List Node) (h : allWellNested script) :
    ShowsEnclosing t script where
  text := by rw [Run.output, render_eq, written_runScript t h]
  filtered := by
    rw [written_runScript t h, written_runScript _ h, written_written (rank_le_trace t)]
  stack node hmem r := by
    have hnode := follows_runNode t node r r.spans (wellNested_of_mem_nodesOf h hmem) rfl
    exact ⟨hnode.stack, hnode.panicked⟩
  leaves source body hmem r := by
    have hbody : allWellNested body := wellNested_of_mem_nodesOf h hmem
    have hinner := follows_runNodes t body (r.enter (source.create t)).2 _ hbody rfl
    rw [Recorder.leave_enter hinner.stack]

/-- A panic inside two spans that is stopped inside the outer one, a thread, and
a line outside of all spans. -/
def stopped : List Node :=
  [.span (.always ⟨.info, "process", some "pid=1"⟩)
    [.guarded [.span (.leveled ⟨.debug, "call", some (fieldText [])⟩)
      [.line .warn "inside", .panic, .line .error "never"]],
     .thread [.line .error "apart"],
     .line .debug "chatty",
     .line .info "after"],
   .line .error "outside"]

/-- **The spans of a line are those around it**, after the panic as before. -/
theorem shows_enclosing_of_stopped :
    allWellNested stopped = true ∧ ShowsEnclosing (some .info) stopped ∧
      written (some .info) (linesOf [] stopped) =
        [⟨.warn, [⟨.info, "process", some "pid=1"⟩], "inside"⟩, ⟨.error, [], "apart"⟩,
          ⟨.info, [⟨.info, "process", some "pid=1"⟩], "after"⟩, ⟨.error, [], "outside"⟩] := by
  have hnest : allWellNested stopped = true := by cbv
  exact ⟨hnest, shows_enclosing (some .info) stopped hnest, by cbv⟩

end PosixSignals.Trace
