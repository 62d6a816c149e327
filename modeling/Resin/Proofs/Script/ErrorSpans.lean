import Resin.Proofs.Parse.ErrorSpans
import Resin.Proofs.Script.RegionSources

/-!
# Where the errors of a compilation stand

A program that is read and has no script fails with an error of one of its statements. Such an error
stands at a part of the tree, in a text that is compiled with its regions, or in a region of such a
text. Parts of the tree stand in the source. Offsets in a text are counted from the start of its
span, so they never lead beyond the text, and the errors of a region lie in the region before they
are moved by its offset. So every error lies in the source (`errors_in_source`).
-/

namespace Resin

open Text Grammar

/-! ## Errors of expressions -/

/-- An error at a call of a method: at the call, at the name of the method or at an argument. -/
def Expr.MethodFault (nodes : List Expr) (e : Error) : Prop :=
  ∃ type target called args span, .method type target called args span ∈ nodes ∧
    (e.span = span ∨ e.span = called.span ∨ ∃ arg ∈ args, e.span = arg.span)

namespace Expr

theorem nodes_subset_nodesList {x : Expr} {xs : List Expr} (h : x ∈ xs) :
    x.nodes ⊆ nodesList xs := by
  obtain ⟨before, after, rfl⟩ := List.append_of_mem h
  rw [nodesList_append, nodesList_cons]
  intro y hy
  exact List.mem_append_right _ (List.mem_append_left _ hy)

theorem MethodFault.mono {nodes nodes' : List Expr} {e : Error} (hsub : nodes ⊆ nodes')
    (h : MethodFault nodes e) : MethodFault nodes' e := by
  obtain ⟨type, target, called, args, span, hmem, hspan⟩ := h
  exact ⟨type, target, called, args, span, hsub hmem, hspan⟩

theorem failsOnly_resolveMethod (type : TypeName) (called : Located String) (given : Nat)
    (span : Span) : FailsOnly (fun e => e.span = span ∨ e.span = called.span)
      (resolveMethod type called given span) := by
  unfold resolveMethod
  split
  · exact .error (.inr rfl)
  · split
    · exact .ok _
    · exact .error (.inl rfl)

theorem failsOnly_requireLambda (type : TypeName) (method : String) (args : List Expr) :
    FailsOnly (fun e => ∃ arg ∈ args, e.span = arg.span) (requireLambda type method args) := by
  unfold requireLambda
  split
  · exact .ok _
  · split
    · exact .ok _
    · exact .error ⟨_, List.mem_cons_self .., rfl⟩

theorem failsOnly_requireSlice (type : TypeName) (method : String) (args : List Expr) :
    FailsOnly (fun e => ∃ arg ∈ args, e.span = arg.span) (requireSlice type method args) := by
  unfold requireSlice
  split
  · exact .ok _
  · split
    · exact .ok _
    · exact .error ⟨_, List.mem_cons_self .., rfl⟩

/-- An expression with two parts, neither of them a lambda or an argument. -/
theorem failsOnly_pair {x y z : Expr} (join : Fragment → Fragment → Fragment)
    (hx : FailsOnly (MethodFault x.nodes) x.script)
    (hy : FailsOnly (MethodFault y.nodes) y.script) (hz : z.inner = x.nodes ++ y.nodes) :
    FailsOnly (MethodFault z.nodes) (do
      let a ← x.script
      let b ← y.script
      pure (join a b)) := by
  have hinner : x.nodes ++ y.nodes ⊆ z.nodes := by
    rw [← hz]
    exact List.subset_cons_self ..
  have hleft := List.Subset.trans (List.subset_append_left x.nodes y.nodes) hinner
  have hright := List.Subset.trans (List.subset_append_right x.nodes y.nodes) hinner
  exact (hx.mono fun e h => h.mono hleft).bind fun _ _ =>
    (hy.mono fun e h => h.mono hright).bind_pure

mutual

/-- Only calls of methods fail. -/
theorem failsOnly_script_nodes : ∀ x : Expr, FailsOnly (MethodFault x.nodes) x.script
  | .number _ _ | .text _ _ _ | .bool _ _ | .null _ | .undefined _ | .input _ | .name _ _ => .ok _
  | .index t i _ =>
    failsOnly_pair _ (failsOnly_script_nodes t) (failsOnly_script_nodes i) rfl
  | .call _ args _ | .array args _ => by
    have hargs := failsOnly_scripts_nodes args
    exact (hargs.mono fun e h => h.mono (List.subset_cons_self ..)).bind_pure
  | .method type target called args span => by
    have hargs := (failsOnly_scripts_nodes args).mono fun e h =>
      h.mono (List.subset_cons_self (.method type target called args span) (nodesList args))
    have hself {P : Error → Prop} {α : Type} {x : Except Error α} (hx : FailsOnly P x)
        (hP : ∀ e, P e → e.span = span ∨ e.span = called.span ∨ ∃ arg ∈ args, e.span = arg.span) :
        FailsOnly (MethodFault (nodes (.method type target called args span))) x :=
      hx.mono fun e he => ⟨type, target, called, args, span, List.mem_cons_self .., hP e he⟩
    refine (hself (failsOnly_resolveMethod type.value called args.length span)
      fun e he => ?_).bind fun m _ => ?_
    · exact he.imp_right .inl
    · split
      · exact hargs.bind_pure
      · exact (hself (failsOnly_requireLambda type.value called.value args)
          fun e he => .inr (.inr he)).bind fun _ _ => hargs.bind_pure
      · exact (hself (failsOnly_requireSlice type.value called.value args)
          fun e he => .inr (.inr he)).bind_pure
  | .binary _ l r _ =>
    failsOnly_pair _ (failsOnly_script_nodes l) (failsOnly_script_nodes r) rfl
  | .lambda _ x _ | .signed _ x _ => by
    have hx := failsOnly_script_nodes x
    exact (hx.mono fun e h => h.mono (List.subset_cons_self ..)).bind_pure

theorem failsOnly_scripts_nodes : ∀ xs : List Expr,
    FailsOnly (MethodFault (nodesList xs)) (scripts xs)
  | [] => .ok _
  | x :: xs => by
    have hfirst := failsOnly_script_nodes x
    have hrest := failsOnly_scripts_nodes xs
    refine (hfirst.mono fun e h => h.mono ?_).bind fun _ _ =>
      (hrest.mono fun e h => h.mono ?_).bind_pure
    · exact List.subset_append_left ..
    · exact List.subset_append_right ..

end

end Expr

section Tokens

variable {source : String} {ts us : List (Located Token)}

/-- What a part of a tree is made of stands in the source, except for a step that is not written. -/
theorem Grammar.Writes.liesIn_children (hitems : (Stream.ofText source).items = ts.map Except.ok)
    (hus : us <:+: ts) {n : Node} (h : Writes us n) : ∀ m ∈ n.children, m.span.LiesIn source := by
  intro m hm
  rcases h.spread.of_mem m hm with ⟨vs, hvs, hwritten⟩ | ⟨-, token, htoken, hspan⟩
  · exact (hwritten.liesIn hitems (hvs.trans hus)).1
  · rw [hspan]
    exact liesIn_point hitems (hus.subset htoken)

/-- An error of a method call stands in the source that the call is written in. -/
theorem Expr.MethodFault.liesIn {nodes : List Expr} {e : Error}
    (hitems : (Stream.ofText source).items = ts.map Except.ok)
    (hnodes : ∀ type target called args span, .method type target called args span ∈ nodes →
      Within Derives ts (.method type target called args span))
    (h : MethodFault nodes e) : e.span.LiesIn source := by
  obtain ⟨type, target, called, args, span, hmem, hspan⟩ := h
  obtain ⟨us, hus, hderived⟩ := hnodes _ _ _ _ _ hmem
  have hwritten : Grammar.Writes us (.expr (.method type target called args span)) := hderived
  have hchildren := hwritten.liesIn_children hitems hus
  rcases hspan with hspan | hspan | ⟨arg, harg, hspan⟩
  · rw [hspan]
    exact (hwritten.liesIn hitems hus).1
  · rw [hspan]
    exact hchildren (.method called) (by simp [Node.children, Expr.parts])
  · rw [hspan]
    exact hchildren (.expr arg) (by simp [Node.children, Expr.parts, harg])

end Tokens

/-- A source that is no expression, or one without a script, fails at a place in it. -/
theorem liesIn_of_expressionScript_error {source : String} {e : Error}
    (h : expressionScript source = .error e) : e.span.LiesIn source := by
  unfold expressionScript at h
  cases hparse : parseExpression source with
  | error e' =>
    rw [hparse] at h
    cases h
    exact liesIn_of_parseExpression_error hparse
  | ok x =>
    rw [hparse] at h
    obtain ⟨o, ts, hitems, hx⟩ := expression_of_parseExpression hparse
    have hderived : Derives ts x := ⟨o, hx⟩
    have hnodes := hderived.of_mem_nodes hx.of_mem_inner
    exact (Expr.failsOnly_script_nodes x e h).liesIn hitems fun _ _ _ _ _ hmem => hnodes _ hmem

/-- The error of a region lies in the region, before it is moved. -/
theorem liesIn_of_regionScript_error {r : String} {e : Error} (hr : r ≠ "")
    (h : regionScript r 0 = .error e) : e.span.LiesIn r := by
  have hempty : r.isEmpty = false := by simpa using hr
  unfold regionScript at h
  rw [hempty] at h
  cases hscript : expressionScript r with
  | ok f =>
    rw [hscript] at h
    cases h
  | error e' =>
    rw [hscript] at h
    cases h
    exact liesIn_of_expressionScript_error hscript

/-! ## Errors in texts with regions -/

/-- The span ends in the source, and does not end before it begins. -/
structure Span.EndsIn (span : Span) (source : String) : Prop where
  start_le_stop : span.start ≤ span.stop
  stop_le : span.stop ≤ byteLength source.toList

theorem Span.LiesIn.endsIn {span : Span} {source : String} (h : span.LiesIn source) :
    span.EndsIn source :=
  ⟨h.start_le_stop, h.stop_le⟩

section Texts

variable {source content : String} {span : Span} {e : Error}

/-- A literal with its quotes ends in the source. -/
theorem LiteralAt.stop_le {start : Nat} (h : LiteralAt source content start) :
    start + byteLength content.toList + 2 ≤ byteLength source.toList := by
  obtain ⟨quote, before, after, hsource, rfl⟩ := h
  rw [hsource]
  simp only [byteLength_append, byteLength_cons, byteLength_nil, quote.utf8Size_char]
  omega

/-- The word `call` stands in a text where it is found. -/
theorem Segment.exists_of_bareCall? {depth offset at_ : Nat} {previous : Option Char}
    {cs : List Char} (h : bareCall? depth previous offset cs = some at_) :
    ∃ before after, cs = before ++ (['c', 'a', 'l', 'l'] ++ after) ∧
      at_ = offset + byteLength before := by
  induction cs generalizing depth offset previous with
  | nil => cases h
  | cons c cs ih =>
    -- behind the first character the offset counts its bytes, one for a bracket
    have hbehind {depth' size : Nat} (hsize : c.utf8Size = size)
        (h : bareCall? depth' (some c) (offset + size) cs = some at_) :
        ∃ before after, c :: cs = before ++ (['c', 'a', 'l', 'l'] ++ after) ∧
          at_ = offset + byteLength before := by
      obtain ⟨before, after, hcs, hat⟩ := ih h
      refine ⟨c :: before, after, congrArg (c :: ·) hcs, ?_⟩
      rw [hat, byteLength_cons, hsize, Nat.add_assoc]
    rw [bareCall?] at h
    split at h
    · next hc => exact hbehind (by rw [hc]; rfl) h
    · split at h
      · next hc => exact hbehind (by rw [hc]; rfl) h
      · split at h
        · next hcall =>
          obtain ⟨after, hafter⟩ := List.isPrefixOf_iff_prefix.1 hcall.2.1
          cases h
          exact ⟨[], after, hafter.symm, rfl⟩
        · exact hbehind rfl h

/-- A call outside the regions of a text is reported in the text. -/
theorem Stands.endsIn_of_bareCall {d : Nat} (h : Stands source content span d)
    (hcalls : Segment.refuseBareCalls content (span.start + 1) = .error e) :
    e.span.EndsIn source := by
  have hstop := h.literal.stop_le
  unfold Segment.refuseBareCalls at hcalls
  split at hcalls
  · next at_ hat =>
    cases hcalls
    obtain ⟨before, after, hcontent, rfl⟩ := Segment.exists_of_bareCall? hat
    have hlength : byteLength content.toList = byteLength before + (4 + byteLength after) := by
      rw [hcontent, byteLength_append, byteLength_append]
      rfl
    refine ⟨Nat.le_add_right .., ?_⟩
    show span.start + 1 + byteLength before + 4 ≤ _
    omega
  · cases hcalls

/-- The errors of a text that is compiled with its regions end in the source. -/
theorem Stands.endsIn_of_fault {d : Nat} (h : Stands source content span d)
    (hfault : Segment.Fault content (span.start + 1) e) : e.span.EndsIn source := by
  have hstop := h.literal.stop_le
  -- a region ends in the text, and its offset counts at least the quote in front of the text
  have hregion {segments : List Segment} {r : String} {o : Nat}
      (hsplit : Segment.split content (span.start + 1) = .ok segments)
      (hmem : .region r o ∈ segments) :
      1 ≤ o ∧ o + byteLength r.toList + 1 ≤ byteLength source.toList := by
    obtain ⟨before, after, hcontent, rfl⟩ := Segment.placed_of_mem_split hsplit _ hmem
    have hlength := congrArg byteLength hcontent
    rw [byteLength_append, byteLength_append] at hlength
    omega
  cases hfault with
  | unmatched hsplit =>
    obtain ⟨before, after, hcontent, rfl⟩ := Segment.exists_bracket_of_split hsplit
    have hlength : byteLength content.toList = byteLength before + (1 + byteLength after) := by
      rw [hcontent, byteLength_append, byteLength_cons]
      rfl
    refine ⟨Nat.le_succ _, ?_⟩
    show span.start + 1 + byteLength before + 1 ≤ _
    omega
  | @empty segments o hsplit hmem =>
    obtain ⟨hpos, hend⟩ := hregion hsplit hmem
    rw [show byteLength "".toList = 0 from rfl] at hend
    refine ⟨?_, ?_⟩
    · show o - 1 ≤ o + 1
      omega
    · show o + 1 ≤ _
      omega
  | @inside segments r o e' hsplit hmem hne hscript =>
    obtain ⟨-, hend⟩ := hregion hsplit hmem
    have hlies := liesIn_of_regionScript_error hne hscript
    have hle := hlies.start_le_stop
    have hinside := hlies.stop_le
    refine ⟨?_, ?_⟩
    · show e'.span.start + o ≤ e'.span.stop + o
      omega
    · show e'.span.stop + o ≤ _
      omega

end Texts

/-! ## Errors of programs -/

section Programs

variable {source : String} {ts us : List (Located Token)} {stmt : Stmt}

/-- The declaration that a statement makes stands in the source. -/
theorem liesIn_of_declared? (hitems : (Stream.ofText source).items = ts.map Except.ok)
    (hus : us <:+: ts) (h : Statement anyExpr us stmt) {d : Located Declaration}
    (hd : stmt.declared? = some d) : d.span.LiesIn source := by
  have hwritten : Grammar.Writes us (.stmt stmt) := h
  unfold Stmt.declared? at hd
  split at hd
  · cases hd
    exact (hwritten.liesIn hitems hus).1
  · next d' span c inc body a =>
    cases hd
    exact hwritten.liesIn_children hitems hus (.start ⟨.declare d', span⟩) (List.mem_cons_self ..)
  · cases hd

/-- A declared type is refused where the declaration stands. -/
theorem Declaration.failsOnly_checkType (d : Declaration) (span : Span) :
    FailsOnly (fun e => e.span = span) (d.checkType span) := by
  unfold checkType
  split
  · exact .error rfl
  · split
    · exact .ok _
    · exact .error rfl
  · exact .ok _

end Programs

/-- The errors of a program that is read end in its source. -/
theorem endsIn_of_programScript_error {source : String} {p : List Stmt} {e : Error}
    (hparse : parseProgram source = .ok p) (h : programScript p = .error e) :
    e.span.EndsIn source := by
  obtain ⟨stmt, hstmt, hfaults⟩ := exists_faults_of_programScript h
  obtain ⟨ts, hitems, hp⟩ := statements_of_parseProgram hparse
  obtain ⟨us, hus, hderived⟩ := hp.of_mem_nodes stmt hstmt
  cases hfaults with
  | @type _ d _ hd hcheck =>
    rw [d.value.failsOnly_checkType d.span e hcheck]
    exact (liesIn_of_declared? hitems hus hderived hd).endsIn
  | empty hd => exact (liesIn_of_declared? hitems hus hderived hd).endsIn
  | @expr _ x _ hx hscript =>
    have hnodes := Expr.nodes_subset_nodesList hx
    refine ((Expr.failsOnly_script_nodes x e hscript).liesIn hitems ?_).endsIn
    intro type target called args span hmem
    rcases hderived.of_mem_exprs _ (hnodes hmem) with ⟨vs, hvs, hx⟩ | ⟨_, _, _, _, _, _, -, heq⟩
    · exact ⟨vs, hvs.trans hus, hx⟩
    · cases heq
  | @bareCall s span _ hquote hcalls =>
    have htext : (Stmt.store s span).interpolated? = some (s.content, s.contentSpan) :=
      if_pos hquote
    obtain ⟨d, hstands, -⟩ := stands_of_parseProgram hparse hstmt htext
    exact hstands.endsIn_of_bareCall hcalls
  | interpolated htext hfault =>
    obtain ⟨d, hstands, -⟩ := stands_of_parseProgram hparse hstmt htext
    exact hstands.endsIn_of_fault hfault

/-- Reading a source fails in it and between characters, be it at the first token or later, and
compiling it fails in it at every stage, regions of texts included. -/
theorem errors_in_source (source : String) :
    (∀ e, parseProgram source = .error e → e.span.LiesIn source) ∧
    (∀ e, ParseState.ofText source = .error e → e.span.LiesIn source) ∧
    ∀ e, compile source = .error e →
      e.span.start ≤ e.span.stop ∧ e.span.stop ≤ byteLength source.toList := by
  refine ⟨fun e h => liesIn_of_parseProgram_error h, fun e h => ParseState.liesIn_of_ofText_error h,
    fun e h => ?_⟩
  unfold compile at h
  cases hparse : parseProgram source with
  | error e' =>
    rw [hparse] at h
    cases h
    have hlies := liesIn_of_parseProgram_error hparse
    exact ⟨hlies.start_le_stop, hlies.stop_le⟩
  | ok p =>
    rw [hparse] at h
    have hends := endsIn_of_programScript_error hparse h
    exact ⟨hends.start_le_stop, hends.stop_le⟩

/-- A declaration that is refused behind a comment of more bytes than characters, and a region of
one blank of two bytes: its error begins between these bytes. -/
theorem errors_in_source_blank : ∃ e e',
    parseProgram "$ é\nassign x;" = .error e ∧ e.span = ⟨5, 13⟩ ∧
      e.span.LiesIn "$ é\nassign x;" ∧
    compile "store s = `é[\u00a0]`;" = .error e' ∧ e'.span = ⟨15, 17⟩ ∧
      e'.span.start ≤ e'.span.stop ∧ e'.span.stop ≤ byteLength "store s = `é[\u00a0]`;".toList := by
  have hparse : parseProgram "$ é\nassign x;" = .error ⟨.untypedDeclaration "x", ⟨5, 13⟩, none⟩ :=
    eq_error_of_failure? (by decide +kernel)
  have hcompile : compile "store s = `é[\u00a0]`;" = .error ⟨.emptyRegion, ⟨15, 17⟩, none⟩ :=
    eq_error_of_failure? (by decide +kernel)
  obtain ⟨hread, -, -⟩ := errors_in_source "$ é\nassign x;"
  obtain ⟨-, -, hends⟩ := errors_in_source "store s = `é[\u00a0]`;"
  exact ⟨_, _, hparse, rfl, hread _ hparse, hcompile, rfl, hends _ hcompile⟩

end Resin
