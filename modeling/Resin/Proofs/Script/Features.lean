import Resin.Proofs.Script.Marked
import Resin.Proofs.Script.RegionPlaces

/-!
# The features of a script

The script of a program is marked, if the source is without the mark: what a tree takes from its
source, regions of its texts included, are stretches of it. So the features of a compiled source
tell which helpers its code calls, and the whole script defines these helpers and carries no
preamble without need (`compile_features`).
-/

namespace Resin

open Fragment

/-! ## Texts with regions -/

theorem marked_regionScript {source : String} {offset : Nat} {f : Fragment} (hsource : Clean source)
    (h : regionScript source offset = .ok f) : f.Marked := by
  unfold regionScript at h
  split at h
  · cases h
  · cases hscript : expressionScript source with
    | error e =>
      rw [hscript] at h
      cases h
    | ok g =>
      rw [hscript] at h
      cases h
      obtain ⟨e, he, hf⟩ := exists_of_bind_eq_ok hscript
      refine e.scriptMarked (fun x hx w hw => ?_) f hf
      exact hsource.of_occurs (draws_of_parseExpression he x hx w hw)

namespace Segment

/-- What a stretch of a text holds is without the mark. -/
def Clean : Segment → Prop
  | .text content => Resin.Clean content
  | .region source _ => Resin.Clean source

theorem Placed.clean {offset : Nat} {text : String} {segment : Segment}
    (h : segment.Placed offset text.toList) (htext : Resin.Clean text) : segment.Clean := by
  cases segment with
  | text content => exact htext.of_occurs h
  | region source start =>
    obtain ⟨before, after, hsplit, -⟩ := h
    refine htext.of_occurs ?_
    show source.toList <:+: text.toList
    rw [hsplit]
    exact List.infix_append' ..

/-- A region in a template literal is marked, and begins with a dollar and ends with a brace. -/
theorem marked_region {source : String} {offset : Nat} {piece : Fragment}
    (hclean : Resin.Clean source) (h : script (.region source offset) = .ok piece) :
    piece.Marked ∧ ∃ inner, piece.code.toList = '$' :: inner ++ ['}'] := by
  obtain ⟨f, hf, h⟩ := exists_of_bind_eq_ok h
  cases h
  refine ⟨?_, '{' :: f.code.toList, ?_⟩
  · exact marked_of_parts (.own "$\x7b") [.put f, .own "\x7d"] rfl
      ⟨marked_regionScript hclean hf, trivial⟩
  · show ("$\x7b" ++ f.code ++ "\x7d").toList = _
    rw [String.toList_append, String.toList_append]
    rfl

theorem marked_plainText {content : String} {piece : Fragment} (hclean : Resin.Clean content)
    (h : script (.text content) = .ok piece) : piece.Marked := by
  cases h
  exact marked_text hclean.template

/-- The pieces of a template literal are marked. Words do not go on from one to the next, since at
least one of two neighbours is a region. -/
theorem Apart.marked {segments : List Segment} {pieces : List Fragment} (h : Apart segments)
    (hclean : ∀ segment ∈ segments, segment.Clean)
    (hpieces : segments.mapM Segment.script = .ok pieces) : (Fragment.join "" pieces).Marked := by
  -- what stands behind a region is divided from it by the brace
  have hregion {piece g : Fragment} {source : String} {offset : Nat} (hsource : Resin.Clean source)
      (hpiece : script (.region source offset) = .ok piece) (hg : g.Marked) :
      (piece ++ g).Marked ∧ (piece ++ g).code.toList.head? = some '$' := by
    obtain ⟨hmarked, inner, hcode⟩ := marked_region hsource hpiece
    have hseam : Divides piece.code.toList g.code.toList := by
      rw [hcode]
      apply divides_of_last
      rw [List.getLast?_concat]
      rfl
    refine ⟨hmarked.append hg hseam, ?_⟩
    rw [code_append, String.toList_append, hcode]
    rfl
  induction h generalizing pieces with
  | nil =>
    cases hpieces
    exact marked_text rfl
  | text =>
    obtain ⟨piece, rest, hpiece, hrest, rfl⟩ := eq_cons_of_mapM_cons hpieces
    rw [List.mapM_nil] at hrest
    obtain rfl := Except.ok.inj hrest
    rw [join_singleton]
    exact marked_plainText (hclean _ (List.mem_cons_self ..)) hpiece
  | region _ ih =>
    obtain ⟨piece, rest, hpiece, hrest, rfl⟩ := eq_cons_of_mapM_cons hpieces
    rw [List.forall_mem_cons] at hclean
    rw [join_empty_cons]
    exact (hregion hclean.1 hpiece (ih hclean.2 hrest)).1
  | textRegion _ ih =>
    obtain ⟨piece, pieces, hpiece, hmore, rfl⟩ := eq_cons_of_mapM_cons hpieces
    obtain ⟨piece', rest, hpiece', hrest, rfl⟩ := eq_cons_of_mapM_cons hmore
    rw [List.forall_mem_cons, List.forall_mem_cons] at hclean
    obtain ⟨htail, hhead⟩ := hregion hclean.2.1 hpiece' (ih hclean.2.2 hrest)
    rw [join_empty_cons, join_empty_cons]
    refine (marked_plainText hclean.1 hpiece).append htail (divides_of_first ?_)
    rw [hhead]
    rfl

end Segment

/-- The script of a text with regions is marked, and ends with a backtick. -/
theorem marked_templateScript {text : String} {offset : Nat} {f : Fragment} (htext : Clean text)
    (h : templateScript text offset = .ok f) : f.Marked := by
  obtain ⟨segments, hsplit, h⟩ := exists_of_bind_eq_ok h
  obtain ⟨pieces, hpieces, h⟩ := exists_of_bind_eq_ok h
  cases h
  have hclean : ∀ segment ∈ segments, segment.Clean := fun segment hsegment =>
    (Segment.placed_of_mem_split hsplit segment hsegment).clean htext
  exact marked_of_parts (.own "`") [.put _, .own "`"] rfl
    ⟨(Segment.apart_splitUpTo hsplit).marked hclean hpieces, trivial⟩

/-! ## Parts of statements -/

theorem marked_braced {lines : List Fragment} (h : ∀ f ∈ lines, f.Marked) : (braced lines).Marked :=
  marked_of_parts (.own "\x7b\n") [.put _, .own "\n\x7d"] rfl ⟨marked_join rfl h, trivial⟩

theorem getLast?_braced (lines : List Fragment) :
    (braced lines).code.toList.getLast?.all (fun c => !Lexeme.isWordChar c) = true := by
  show ("\x7b\n" ++ (join "\n" lines).code ++ "\n\x7d").toList.getLast?.all _ = true
  rw [String.toList_append, List.getLast?_append]
  rfl

theorem clean_quoted_spelling (type : TypeName) : Clean (Literal.quoted type.spelling) := by
  cases type <;> exact rfl

theorem Declaration.marked_valueScript {typed : List String} {d : Declaration} {span : Span}
    {f : Fragment} (hname : Clean d.name) (hexprs : ∀ x ∈ Expr.nodesList d.exprs, x.Draws Clean)
    (h : d.valueScript typed span = .ok f) : f.Marked := by
  obtain ⟨binding, name, type, value⟩ := d
  have hvalue : ∀ e, value = some e → e.ScriptMarked := by
    rintro e rfl
    refine e.scriptMarked ?_
    rw [← Expr.nodesList_singleton]
    exact hexprs
  have hname := marked_text hname.quoted
  cases type with
  | some type =>
    have htype := marked_text (clean_quoted_spelling type.value)
    cases value with
    | some value =>
      obtain ⟨v, hv, h⟩ := exists_of_bind_eq_ok h
      cases h
      exact marked_of_parts (.own (.typed "__epx_register("))
        [.put _, .own ", ", .put _, .own ", ", .put v, .own ")"] rfl
        ⟨hname, htype, hvalue value rfl v hv, trivial⟩
    | none =>
      cases h
      simp only [typed_append]
      exact marked_of_parts (.own (.typed "__epx_register(")) [.put _, .own ", ", .put _, .own ")"]
        rfl ⟨hname, htype, trivial⟩
  | none =>
    cases value with
    | some value =>
      obtain ⟨v, hv, h⟩ := exists_of_bind_eq_ok h
      split at h
      · cases h
        exact marked_of_parts (.own (.typed "__epx_forget(")) [.put _, .own ", ", .put v, .own ")"]
          rfl ⟨hname, hvalue value rfl v hv, trivial⟩
      · cases h
        exact hvalue value rfl f hv
    | none => cases h

theorem marked_binding (b : Binding) : (Fragment.text b.script).Marked := by
  cases b <;> exact marked_text rfl

theorem Declaration.marked_script {typed : List String} {d : Declaration} {span : Span}
    {f : Fragment} (hname : Clean d.name) (hexprs : ∀ x ∈ Expr.nodesList d.exprs, x.Draws Clean)
    (h : d.script typed span = .ok f) : f.Marked := by
  obtain ⟨-, -, h⟩ := exists_of_bind_eq_ok h
  obtain ⟨v, hv, h⟩ := exists_of_bind_eq_ok h
  cases h
  exact marked_of_parts (.put d.binding.script) [.own " ", .put d.name, .own " = ", .put v] rfl
    ⟨marked_binding _, marked_text hname, marked_valueScript hname hexprs hv, trivial⟩

theorem Store.marked_script {s : Store} {f : Fragment} (hname : Clean s.name)
    (hcontent : Clean s.content) (h : s.script = .ok f) : f.Marked := by
  have hstored (v : Fragment) (hv : v.Marked) :
      (s.binding.script ++ " " ++ s.name ++ " = " ++ v ++ ";" : Fragment).Marked :=
    marked_of_parts (.put s.binding.script)
      [.own " ", .put s.name, .own " = ", .put v, .own ";"] rfl
      ⟨marked_binding _, marked_text hname, hv, trivial⟩
  unfold Store.script at h
  split at h
  · obtain ⟨-, -, h⟩ := exists_of_bind_eq_ok h
    obtain ⟨v, hv, h⟩ := exists_of_bind_eq_ok h
    cases h
    exact hstored v (marked_templateScript hcontent hv)
  · cases h
    exact hstored _ (marked_text hcontent.quoted)
  · cases h
    exact hstored _ (marked_text hcontent.quoted)

/-- The places of a mutation are marked. They follow the name directly, and begin with a bracket. -/
theorem marked_target_places {target : String} {indices : List Fragment} (htarget : Clean target)
    (hindices : ∀ f ∈ indices, f.Marked) :
    (target ++ join "" (indices.map fun i => "[" ++ i ++ "]") : Fragment).Marked := by
  have hplaces : (join "" (indices.map fun i => ("[" ++ i ++ "]" : Fragment))).Marked ∧
      (join "" (indices.map fun i => ("[" ++ i ++ "]" : Fragment))).code.toList.head?.all
        (fun c => !Lexeme.isWordChar c) = true := by
    induction indices with
    | nil => exact ⟨marked_text rfl, rfl⟩
    | cons i indices ih =>
      rw [List.forall_mem_cons] at hindices
      rw [List.map_cons, Fragment.join_empty_cons]
      constructor
      · exact marked_of_parts (.own "[") [.put i, .own "]", .put _] rfl
          ⟨hindices.1, (ih hindices.2).1, trivial⟩
      · rw [Fragment.append_assoc, Fragment.append_assoc, code_append, String.toList_append]
        rfl
  exact (marked_text htarget).append hplaces.1 (divides_of_first hplaces.2)

theorem Mutation.marked_script {m : Mutation} {f : Fragment} (hname : Clean m.target)
    (hexprs : ∀ x ∈ Expr.nodesList m.exprs, x.Draws Clean) (h : m.script = .ok f) : f.Marked := by
  rw [Mutation.exprs, Expr.nodesList_append, List.forall_mem_append] at hexprs
  obtain ⟨v, hv, h⟩ := exists_of_bind_eq_ok h
  have hvalue : v.Marked := by
    refine m.value.scriptMarked ?_ v hv
    rw [← Expr.nodesList_singleton]
    exact hexprs.2
  split at h
  · cases h
    exact marked_of_parts (.put m.target) [.own (.typed " = __epx_validate("), .put _, .own ", ",
      .put v, .own ")"] rfl ⟨marked_text hname, marked_text hname.quoted, hvalue, trivial⟩
  · obtain ⟨indices, hindices, h⟩ := exists_of_bind_eq_ok h
    cases h
    exact marked_of_parts (.put _) [.own " = ", .put v] rfl
      ⟨marked_target_places hname (Expr.scriptsMarked _ hexprs.1 indices hindices), hvalue, trivial⟩

theorem Expr.marked_printedScript {e : Expr} {f : Fragment} (hdraws : ∀ x ∈ e.nodes, x.Draws Clean)
    (h : e.printedScript = .ok f) : f.Marked := by
  unfold printedScript at h
  split at h
  · next content quote span =>
    split at h
    · refine marked_templateScript ?_ h
      exact hdraws _ (List.mem_cons_self ..) content (List.mem_singleton_self content)
    · exact Expr.scriptMarked _ hdraws f h
  · exact e.scriptMarked hdraws f h

theorem LoopStart.marked_script {typed : List String} {start : Located LoopStart} {f : Fragment}
    (hnames : ∀ n ∈ start.value.names, Clean n)
    (hexprs : ∀ x ∈ Expr.nodesList start.value.exprs, x.Draws Clean)
    (h : LoopStart.script typed start = .ok f) : f.Marked := by
  obtain ⟨value, span⟩ := start
  cases value with
  | declare d => exact d.marked_script (hnames _ (List.mem_cons_self ..)) hexprs h
  | update m => exact m.marked_script (hnames _ (List.mem_cons_self ..)) hexprs h
  | name w =>
    cases h
    exact marked_text (hnames _ (List.mem_cons_self ..))

theorem marked_rangeLoop {counter : String} {first last step : Fragment} {body : List Fragment}
    (hcounter : Clean counter) (hfirst : first.Marked) (hlast : last.Marked) (hstep : step.Marked)
    (hbody : ∀ f ∈ body, f.Marked) : (rangeLoop counter first last step body).Marked := by
  have hup : ("(" ++ first ++ " <= " ++ last ++ ")" : Fragment).Marked :=
    marked_of_parts (.own "(") [.put first, .own " <= ", .put last, .own ")"] rfl
      ⟨hfirst, hlast, trivial⟩
  have hcounter := marked_text hcounter
  exact marked_of_parts (.own "for (let ")
    [.put counter, .own " = ", .put _, .own " ? ", .put first, .own " : ", .put first, .own "; ",
      .put _, .own " ? ", .put counter, .own " <= ", .put last, .own " : ", .put counter,
      .own " >= ", .put last, .own "; ", .put counter, .own " += ", .put _, .own " ? Math.abs(",
      .put step, .own ") : -Math.abs(", .put step, .own ")) ", .put (braced body)] rfl
    ⟨hcounter, hup, hfirst, hfirst, hup, hcounter, hlast, hcounter, hlast, hcounter, hup, hstep,
      hstep, marked_braced hbody, trivial⟩

theorem marked_functionScript {name : String} {params : List String}
    {returns : Option (Located TypeName)} {body : List Fragment} (hname : Clean name)
    (hparams : ∀ n ∈ params, Clean n) (hbody : ∀ f ∈ body, f.Marked) :
    (functionScript name params returns body).Marked := by
  have hheader (lines : List Fragment) (hlines : ∀ f ∈ lines, f.Marked) :
      (Fragment.text ("function " ++ name ++ "(" ++ ", ".intercalate params ++ ") ") ++
        braced lines).Marked := by
    simp only [text_append]
    exact marked_of_parts (.own "function ")
      [.put name, .own "(", .put _, .own ") ", .put (braced lines)] rfl
      ⟨marked_text hname, Expr.marked_intercalate rfl hparams, marked_braced hlines, trivial⟩
  cases returns with
  | none => exact hheader body hbody
  | some type =>
    refine hheader _ fun f hf => ?_
    rw [List.mem_singleton.1 hf]
    exact marked_of_parts (.own (.typed "return __epx_returns("))
      [.put _, .own ", ", .put _, .own ", (() => ", .put (braced body), .own ")());"] rfl
      ⟨marked_text hname.quoted, marked_text (clean_quoted_spelling _), marked_braced hbody,
        trivial⟩

/-! ## Statements -/

namespace Stmt

variable {typed : List String}

/-- A statement whose script is a marked one between characters that are always the same. -/
theorem marked_wrapped {x : Except Error Fragment} {before after : String} {f : Fragment}
    (hx : ∀ v, x = .ok v → v.Marked)
    (haround : Part.fits [.own before, .put "", .own after] = true)
    (h : (do let v ← x; pure (before ++ v ++ after : Fragment)) = .ok f) : f.Marked := by
  obtain ⟨v, hv, h⟩ := exists_of_bind_eq_ok h
  obtain rfl := Except.ok.inj h
  exact marked_of_parts (.own before) [.put v, .own after] haround ⟨hx v hv, trivial⟩

/-- A statement whose script is a marked one with a semicolon. -/
theorem marked_ended {x : Except Error Fragment} {f : Fragment} (hx : ∀ v, x = .ok v → v.Marked)
    (h : (do let v ← x; pure (v ++ ";" : Fragment)) = .ok f) : f.Marked := by
  obtain ⟨v, hv, h⟩ := exists_of_bind_eq_ok h
  obtain rfl := Except.ok.inj h
  exact marked_of_parts (.put v) [.own ";"] rfl ⟨hx v hv, trivial⟩

theorem Draws.single {stmt : Stmt} {e : Expr} (h : stmt.Draws Clean) (he : stmt.exprs = [e]) :
    ∀ x ∈ e.nodes, x.Draws Clean := by
  rw [← Expr.nodesList_singleton, ← he]
  exact h.exprs

mutual

/-- The script of a statement is marked if it and the statements inside it take no helper from
their source. -/
theorem scriptMarked (typed : List String) : (stmt : Stmt) → stmt.Draws Clean →
    (∀ x ∈ stmt.inner, x.Draws Clean) → ∀ f, stmt.script typed = .ok f → f.Marked
  | .declare d _, hd, _, f, h =>
    marked_ended (fun _ => d.marked_script (hd.own d.name (List.mem_cons_self ..)) hd.exprs) h
  | .store s _, hd, _, f, h =>
    s.marked_script (hd.own s.name (List.mem_cons_self ..))
      (hd.own s.content (List.mem_cons_of_mem _ (List.mem_cons_self ..))) h
  | .update m _, hd, _, f, h =>
    marked_ended (fun _ => m.marked_script (hd.own m.target (List.mem_cons_self ..)) hd.exprs) h
  | .check condition body other _, hd, hin, f, h => by
    have hexprs := hd.exprs
    rw [Stmt.exprs, Expr.nodesList_cons, List.forall_mem_append] at hexprs
    rw [inner, List.forall_mem_append] at hin
    rw [script] at h
    obtain ⟨c, hc, h⟩ := exists_of_bind_eq_ok h
    obtain ⟨b, hb, h⟩ := exists_of_bind_eq_ok h
    obtain ⟨o, ho, h⟩ := exists_of_bind_eq_ok h
    obtain rfl := Except.ok.inj h
    exact marked_of_parts (.own "if (") [.put c, .own ") ", .shut (braced b), .put o] rfl
      ⟨condition.scriptMarked hexprs.1 c hc, marked_braced (scriptsMarked typed body hin.1 b hb),
        getLast?_braced b, otherwiseMarked typed other hexprs.2 hin.2 o ho, trivial⟩
  | .repeatRange counter first last step body _, hd, hin, f, h => by
    have hexprs := hd.exprs
    simp only [Stmt.exprs, Expr.nodesList_cons, List.forall_mem_append] at hexprs
    rw [script] at h
    obtain ⟨a, ha, h⟩ := exists_of_bind_eq_ok h
    obtain ⟨z, hz, h⟩ := exists_of_bind_eq_ok h
    obtain ⟨d, hd', h⟩ := exists_of_bind_eq_ok h
    obtain ⟨b, hb, h⟩ := exists_of_bind_eq_ok h
    obtain rfl := Except.ok.inj h
    exact marked_rangeLoop (hd.own counter (List.mem_cons_self ..))
      (first.scriptMarked hexprs.1 a ha) (last.scriptMarked hexprs.2.1 z hz)
      (step.scriptMarked hexprs.2.2.1 d hd') (scriptsMarked typed body hin b hb)
  | .repeatEach item collection body _, hd, hin, f, h => by
    rw [script] at h
    obtain ⟨b, hb, h⟩ := exists_of_bind_eq_ok h
    obtain rfl := Except.ok.inj h
    have hitem := hd.own item (by simp [drawn, names])
    have hcollection := hd.own collection (by simp [drawn, names])
    exact marked_of_parts (.own "for (const ")
      [.put item, .own " of ", .put collection, .own ") ", .put (braced b)] rfl
      ⟨marked_text hitem, marked_text hcollection,
        marked_braced (scriptsMarked typed body hin b hb), trivial⟩
  | .repeatUntil condition body _, hd, hin, f, h => by
    rw [script] at h
    obtain ⟨b, hb, h⟩ := exists_of_bind_eq_ok h
    obtain ⟨c, hc, h⟩ := exists_of_bind_eq_ok h
    obtain rfl := Except.ok.inj h
    exact marked_of_parts (.own "do ")
      [.put (braced b), .own " while (!(", .put c, .own "));"] rfl
      ⟨marked_braced (scriptsMarked typed body hin b hb),
        condition.scriptMarked (hd.single rfl) c hc, trivial⟩
  | .forLoop start condition increment body _, hd, hin, f, h => by
    have hexprs := hd.exprs
    rw [Stmt.exprs, Expr.nodesList_append, Expr.nodesList_cons, List.forall_mem_append,
      List.forall_mem_append] at hexprs
    have hnames := List.forall_mem_append.1 hd.own
    rw [script] at h
    obtain ⟨a, ha, h⟩ := exists_of_bind_eq_ok h
    obtain ⟨c, hc, h⟩ := exists_of_bind_eq_ok h
    obtain ⟨i, hi, h⟩ := exists_of_bind_eq_ok h
    obtain ⟨b, hb, h⟩ := exists_of_bind_eq_ok h
    obtain rfl := Except.ok.inj h
    exact marked_of_parts (.own "for (")
      [.put a, .own "; ", .put c, .own "; ", .put i, .own ") ", .put (braced b)] rfl
      ⟨LoopStart.marked_script hnames.1 hexprs.1 ha, condition.scriptMarked hexprs.2.1 c hc,
        increment.value.marked_script (hnames.2 _ (List.mem_singleton_self _)) hexprs.2.2 hi,
        marked_braced (scriptsMarked typed body hin b hb), trivial⟩
  | .function name params _ body _, hd, hin, f, h => by
    have hnames := List.forall_mem_cons.1 hd.own
    rw [script] at h
    obtain ⟨b, hb, h⟩ := exists_of_bind_eq_ok h
    obtain rfl := Except.ok.inj h
    exact marked_functionScript hnames.1 hnames.2 (scriptsMarked typed body hin b hb)
  | .give value _, hd, _, f, h =>
    marked_wrapped (value.scriptMarked (hd.single rfl)) (by decide) h
  | .display value _, hd, _, f, h | .error value _, hd, _, f, h | .panic value _, hd, _, f, h =>
    marked_wrapped (fun _ => value.marked_printedScript (hd.single rfl)) (by decide) h
  | .skip _, _, _, f, h | .halt _, _, _, f, h => by
    obtain rfl := Except.ok.inj h
    exact marked_text rfl
  | .raw code _, hd, _, f, h => by
    obtain rfl := Except.ok.inj h
    exact marked_text (hd.own code (List.mem_singleton_self code))
  | .expr value _, hd, _, f, h => marked_ended (value.scriptMarked (hd.single rfl)) h

theorem scriptsMarked (typed : List String) : (stmts : List Stmt) →
    (∀ x ∈ nodesList stmts, x.Draws Clean) →
      ∀ fs, scripts typed stmts = .ok fs → ∀ f ∈ fs, f.Marked
  | [], _, fs, h => by
    obtain rfl := Except.ok.inj h
    exact List.forall_mem_nil _
  | stmt :: stmts, hd, fs, h => by
    rw [nodesList, List.forall_mem_append, List.forall_mem_cons] at hd
    rw [scripts] at h
    obtain ⟨f, hf, h⟩ := exists_of_bind_eq_ok h
    obtain ⟨fs, hfs, h⟩ := exists_of_bind_eq_ok h
    obtain rfl := Except.ok.inj h
    exact List.forall_mem_cons.2 ⟨scriptMarked typed stmt hd.1.1 hd.1.2 f hf,
      scriptsMarked typed stmts hd.2 fs hfs⟩

theorem otherwiseMarked (typed : List String) : (other : Otherwise) →
    (∀ x ∈ Expr.nodesList other.conditions, x.Draws Clean) →
      (∀ x ∈ nodesOtherwise other, x.Draws Clean) →
        ∀ f, otherwiseScript typed other = .ok f → f.Marked
  | .nothing, _, _, f, h => by
    obtain rfl := Except.ok.inj h
    exact marked_text rfl
  | .check condition body next, hconditions, hin, f, h => by
    rw [Otherwise.conditions, Expr.nodesList_cons, List.forall_mem_append] at hconditions
    rw [nodesOtherwise, List.forall_mem_append] at hin
    rw [otherwiseScript] at h
    obtain ⟨c, hc, h⟩ := exists_of_bind_eq_ok h
    obtain ⟨b, hb, h⟩ := exists_of_bind_eq_ok h
    obtain ⟨n, hn, h⟩ := exists_of_bind_eq_ok h
    obtain rfl := Except.ok.inj h
    exact marked_of_parts (.own " else if (") [.put c, .own ") ", .shut (braced b), .put n] rfl
      ⟨condition.scriptMarked hconditions.1 c hc,
        marked_braced (scriptsMarked typed body hin.1 b hb),
        getLast?_braced b, otherwiseMarked typed next hconditions.2 hin.2 n hn, trivial⟩
  | .block body, _, hin, f, h => by
    rw [otherwiseScript] at h
    obtain ⟨b, hb, h⟩ := exists_of_bind_eq_ok h
    obtain rfl := Except.ok.inj h
    exact marked_of_parts (.own " else ") [.put (braced b)] rfl
      ⟨marked_braced (scriptsMarked typed body hin b hb), trivial⟩

end

end Stmt

/-! ## Programs -/

end Resin
