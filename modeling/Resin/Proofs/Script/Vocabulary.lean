import Resin.Proofs.Number.Overflow
import Resin.Proofs.Scan.Stmt
import Resin.Proofs.Scan.Words
import Resin.Proofs.Script.Frames
import Resin.Proofs.Token.Tiling

/-!
# The words of a script

Every word in the plain code of a compiled source, outside the texts of its literals, is one of
`fixedWords`, which the constructions of the language and the texts of the methods write, or a name
of the source or of a region in it, or `inf`. The last one stands for numbers that are too large;
every other number is written in digits (`compile_words`).

Frames are checked one by one: the fixed words are all that they write themselves, and no word goes
on from a frame into what fills its holes (`Frame.speaks`).
-/

namespace Resin

open Scan

/-- The words that a script takes from no source. -/
def fixedWords : List String :=
  ["true", "false", "null", "undefined", "let", "var", "const", "if", "else", "for", "of", "do",
    "while", "function", "return", "continue", "break", "throw", "new", "Error", "String", "Math",
    "abs", "console", "log", "error", "__epx_register", "__epx_validate", "__epx_forget",
    "__epx_returns", "__epx_input", "push", "splice", "indexOf", "includes", "filter", "map",
    "join", "concat", "sort", "localeCompare", "min", "max", "length", "slice", "reverse",
    "toUpperCase", "toLowerCase", "replace", "replaceAll", "a", "b", "i", "_"]

/-- A closed text whose words in plain code are fixed, or have a property. -/
structure Worded (P : String → Prop) (text : String) : Prop where
  closed : Closed text
  known : ∀ w : String, CodeWord start text.toList w.toList → w ∈ fixedWords ∨ P w

/-! ## Frames -/

namespace Frame

/-- Whether no run can come from before a stretch and go on in it. -/
def opensApart : Frame → Bool
  | .own text => text.toList.head?.any fun c => !isRunPart c
  | .hole => false

/-- Whether no run can go on behind a stretch. -/
def endsApart : Frame → Bool
  | .own text => text.toList.getLast?.any fun c => !isRunPart c
  | .hole => false

/-- Whether no run can go on from one stretch into the next. -/
def apart : List Frame → Bool
  | [] | [_] => true
  | frame :: next :: frames => (frame.endsApart || next.opensApart) && apart (next :: frames)

/-- The scanner goes over a text with holes. A hole may stand in plain code only, and is passed
over. -/
def pass : State → List Frame → Option State
  | s, [] => some s
  | s, .own text :: frames => (run s text.toList).bind fun s => pass s frames
  | s, .hole :: frames => if s.mode = .code then pass s frames else none

/-- The words of the stretches that are always the same. -/
def ownWords : List Frame → List String
  | [] => []
  | .own text :: frames => words text ++ ownWords frames
  | .hole :: frames => ownWords frames

/-- Whether a text with holes is closed around them, keeps its words apart from what fills them, and
writes only fixed words itself. -/
def speaks (frames : List Frame) : Bool :=
  pass start frames = some start && apart frames && (ownWords frames).all fixedWords.contains

theorem speaks_phrase (p : Phrase) : speaks p.frames = true := by
  cases p with
  | bool value => cases value <;> decide +kernel
  | binary op => cases op <;> decide +kernel
  | signed sign => cases sign <;> decide +kernel
  | stride joined => cases joined <;> decide +kernel
  | reversal joined => cases joined <;> decide +kernel
  | bind binding => cases binding <;> decide +kernel
  | _ => decide +kernel

theorem speaks_method (m : Method) (hm : m ∈ Method.table) {text : String}
    (htext : m.text? = some text) :
    speaks ((Method.slots m.arity 0 text.toList).map Method.Slot.frame) = true := by
  have hall : (Method.table.all fun m => m.text?.all fun text =>
      speaks ((Method.slots m.arity 0 text.toList).map Method.Slot.frame)) = true := by
    decide +kernel
  have hmethod := List.all_eq_true.1 hall m hm
  rwa [htext] at hmethod

/-- Every fixed word is written by a construction or by a method. -/
theorem exists_framed_of_fixed {w : String} (h : w ∈ fixedWords) :
    ∃ frames, Framed frames ∧ w ∈ ownWords frames := by
  let phrases : List Phrase :=
    [.bool true, .bool false, .null, .undefined, .input, .sliceFrom, .stride true, .reversal true,
      .register, .forget, .validate, .bind .plain, .bind .global, .bind .fixed, .check, .elseIf,
      .rangeLoop, .each, .doUntil, .function, .returns, .display, .error, .panic, .skip, .halt]
  have hall : (fixedWords.all fun w => phrases.any (fun p => (ownWords p.frames).contains w) ||
      Method.table.any fun m => m.text?.any fun text =>
        (ownWords ((Method.slots m.arity 0 text.toList).map Method.Slot.frame)).contains w) =
      true := by
    decide +kernel
  have hw := List.all_eq_true.1 hall w h
  rw [Bool.or_eq_true, List.any_eq_true, List.any_eq_true] at hw
  rcases hw with ⟨p, -, hp⟩ | ⟨m, hm, hmethod⟩
  · exact ⟨_, .phrase p, List.contains_iff_mem.1 hp⟩
  · obtain ⟨text, htext, hmem⟩ := (Option.any_eq_true _ _).1 hmethod
    exact ⟨_, .method hm htext, List.contains_iff_mem.1 hmem⟩

variable {P : String → Prop} {s t : State} {frames : List Frame} {fillings : List String}

/-- A text with holes is scanned as it stands, whatever fills them. -/
theorem run_fill (hpass : pass s frames = some t) (hfillings : ∀ f ∈ fillings, Worded P f) :
    run s (fill frames fillings).toList = some t := by
  fun_induction fill frames fillings generalizing s with
  | case1 => exact hpass
  | case2 text frames fillings ih =>
    obtain ⟨u, hu, hrest⟩ := Option.bind_eq_some_iff.1 hpass
    rw [String.toList_append, run_append, hu]
    exact ih hrest hfillings
  | case3 frames filling fillings ih =>
    rw [List.forall_mem_cons] at hfillings
    obtain ⟨mode, stack⟩ := s
    rw [pass] at hpass
    split at hpass
    · next hmode =>
      cases hmode
      rw [String.toList_append, run_append, hfillings.1.closed.run stack]
      exact ih hpass hfillings.2
    · cases hpass
  | case4 frames ih =>
    rw [pass] at hpass
    split at hpass
    · exact ih hpass hfillings
    · cases hpass

/-- No run goes on from a stretch, or from what fills it, into the rest of the text. -/
theorem seam_fill {frame : Frame} {text : String} (hapart : apart (frame :: frames) = true)
    (htext : ∀ own, frame = .own own → text = own) :
    Seam text.toList (fill frames fillings).toList := by
  cases frames with
  | nil => exact fun c d _ hd => by cases hd
  | cons next frames =>
    rw [apart, Bool.and_eq_true, Bool.or_eq_true] at hapart
    rcases hapart.1 with hends | hopens
    · cases frame with
      | hole => cases hends
      | own own =>
        rw [htext own rfl]
        obtain ⟨c, hlast, hc⟩ := (Option.any_eq_true _ _).1 hends
        exact seam_of_last (by rw [hlast]; exact hc)
    · cases next with
      | hole => cases hopens
      | own own =>
        obtain ⟨c, hhead, hc⟩ := (Option.any_eq_true _ _).1 hopens
        refine seam_of_first ?_
        rw [fill, String.toList_append, List.head?_append, hhead]
        exact hc

/-- A word of a text with holes is one that the text always has, or comes from what fills a hole. -/
theorem codeWord_fill (hpass : pass s frames = some t) (hapart : apart frames = true)
    (hfillings : ∀ f ∈ fillings, Worded P f) {w : String}
    (hw : CodeWord s (fill frames fillings).toList w.toList) :
    w ∈ ownWords frames ∨ w ∈ fixedWords ∨ P w := by
  -- the rest of a text is apart if the text is
  have hrest {frame : Frame} {frames : List Frame} (h : apart (frame :: frames) = true) :
      apart frames = true := by
    cases frames with
    | nil => rfl
    | cons next frames => exact (Bool.and_eq_true_iff.1 h).2
  fun_induction fill frames fillings generalizing s with
  | case1 => exact absurd hw (not_codeWord_of_forall (List.forall_mem_nil _))
  | case2 text frames fillings ih =>
    obtain ⟨u, hu, hpass⟩ := Option.bind_eq_some_iff.1 hpass
    rw [String.toList_append] at hw
    rcases hw.of_append (seam_fill hapart (by rintro own ⟨⟩; rfl)) with hw | ⟨v, hv, hw⟩
    · exact .inl (List.mem_append_left _ hw.mem_words)
    · rw [hu] at hv
      cases hv
      exact (ih hpass (hrest hapart) hfillings hw).imp_left (List.mem_append_right _)
  | case3 frames filling fillings ih =>
    rw [List.forall_mem_cons] at hfillings
    obtain ⟨mode, stack⟩ := s
    rw [pass] at hpass
    split at hpass
    · next hmode =>
      cases hmode
      have hclosed := hfillings.1.closed
      rw [String.toList_append] at hw
      rcases hw.of_append (seam_fill hapart (by rintro own ⟨⟩)) with hw | ⟨v, hv, hw⟩
      · exact .inr (hfillings.1.known w (hw.of_within hclosed))
      · rw [hclosed.run stack] at hv
        cases hv
        exact ih hpass (hrest hapart) hfillings.2 hw
    · cases hpass
  | case4 frames ih =>
    rw [pass] at hpass
    split at hpass
    · exact ih hpass (hrest hapart) hfillings hw
    · cases hpass

/-- A text with holes that speaks fixed words, filled with texts whose words are known. -/
theorem worded_fill (h : speaks frames = true) (hfillings : ∀ f ∈ fillings, Worded P f) :
    Worded P (fill frames fillings) := by
  rw [speaks, Bool.and_eq_true, Bool.and_eq_true, decide_eq_true_eq] at h
  obtain ⟨⟨hpass, hapart⟩, hown⟩ := h
  refine ⟨run_fill hpass hfillings, fun w hw => ?_⟩
  rcases codeWord_fill hpass hapart hfillings hw with hmem | hknown
  · exact .inl (List.contains_iff_mem.1 (List.all_eq_true.1 hown w hmem))
  · exact hknown

end Frame

/-! ## Literals and numbers -/

section Plain

variable {P : String → Prop} {text : String}

theorem worded_quoted (text : String) : Worded P (Literal.quoted text) :=
  ⟨closed_quoted text, fun _ hw => absurd hw (not_codeWord_quoted text)⟩

theorem worded_of_isWord (htext : IsWord text) (h : P text) : Worded P text :=
  ⟨htext.closed, fun _ hw => .inr (hw.eq_of_isWord htext ▸ h)⟩

/-- A text without letters and underscores has no words. -/
theorem worded_of_forall (hclosed : Closed text)
    (h : ∀ c ∈ text.toList, Lexeme.isWordChar c = false) : Worded P text :=
  ⟨hclosed, fun _ hw => absurd hw (not_codeWord_of_forall h)⟩

theorem worded_nat (n : Nat) : Worded P (toString n) :=
  worded_of_forall (closed_nat n) (forall_mem_nat (fun _ => isWordChar_of_isDigit) n)

theorem worded_int (i : Int) : Worded P (toString i) :=
  worded_of_forall (closed_int i) (forall_mem_int (fun _ => isWordChar_of_isDigit) rfl i)

theorem Number.Numeral.worded {v : Number} (h : v.Numeral v.text.toList) : Worded P v.text := by
  refine worded_of_forall (closed_number v) fun c hc => ?_
  obtain ⟨first, whole, hfirst, hwhole, -, htext⟩ := h
  have hdigits : ∀ c ∈ first :: whole, Lexeme.isWordChar c = false := by
    rw [List.forall_mem_cons]
    exact ⟨isWordChar_of_isDigit hfirst, fun c hc => isWordChar_of_isDigit (hwhole c hc)⟩
  rcases htext with ⟨htext, -⟩ | ⟨fraction, hfraction, htext, -⟩
  · exact hdigits c (htext ▸ hc)
  · rw [htext] at hc
    rcases List.mem_append.1 hc with hc | hc
    · exact hdigits c hc
    · rcases List.mem_cons.1 hc with rfl | hc
      · rfl
      · exact isWordChar_of_isDigit (hfraction c hc)

end Plain

/-! ## Texts with regions -/

namespace Segment

variable {P : String → Prop} {w : String} {stack : List Bracket}

theorem not_codeWord_text {content : String} {piece : Fragment}
    (h : script (.text content) = .ok piece) :
    ¬ CodeWord ⟨.template, stack⟩ piece.code.toList w.toList := by
  cases h
  obtain ⟨mode, -, hleads⟩ := leads_template content.toList stack (.inl rfl)
  show ¬ CodeWord _ (Literal.template content).toList _
  rw [Literal.template, String.toList_ofList]
  exact hleads.not_codeWord (not_inTemplate_code stack)

variable {source : String} {offset : Nat} {piece : Fragment}

theorem exists_of_region (h : script (.region source offset) = .ok piece) :
    ∃ f, regionScript source offset = .ok f ∧
      piece.code.toList = ['$', '{'] ++ (f.code.toList ++ ['}']) := by
  obtain ⟨f, hf, h⟩ := exists_of_bind_eq_ok h
  cases h
  refine ⟨f, hf, ?_⟩
  change ("$\x7b" ++ f.code ++ "\x7d").toList = _
  rw [String.toList_append, String.toList_append, List.append_assoc]
  rfl

theorem seam_region (h : script (.region source offset) = .ok piece) (cs : List Char) :
    Seam piece.code.toList cs := by
  obtain ⟨f, -, hcode⟩ := exists_of_region h
  refine seam_of_last ?_
  rw [hcode, ← List.append_assoc, List.getLast?_concat]
  rfl

/-- The words of a region in a template literal are those of its script. -/
theorem codeWord_region {mode : Mode} (h : script (.region source offset) = .ok piece)
    (hmode : BeforeText mode none)
    (hregion : ∀ g, regionScript source offset = .ok g → Worded P g.code)
    (hw : CodeWord ⟨mode, stack⟩ piece.code.toList w.toList) : w ∈ fixedWords ∨ P w := by
  obtain ⟨f, hf, hcode⟩ := exists_of_region h
  have hopen : run ⟨mode, stack⟩ ['$', '{'] = some ⟨.code, .substitution :: stack⟩ := by
    obtain rfl | ⟨rfl, -⟩ := hmode <;> rfl
  rw [hcode] at hw
  rcases hw.of_append (seam_of_last (by decide)) with hw | ⟨t, ht, hw⟩
  · exact absurd hw (not_codeWord_of_all rfl)
  · rw [hopen] at ht
    cases ht
    rcases hw.of_append (seam_of_first (by decide)) with hw | ⟨u, -, hw⟩
    · exact (hregion f hf).known w (hw.of_within (hregion f hf).closed)
    · exact absurd hw (not_codeWord_of_all rfl)

/-- The words in the pieces of a template literal are those of its regions. -/
theorem Apart.codeWord {segments : List Segment} {pieces : List Fragment} (h : Apart segments)
    (hpieces : segments.mapM Segment.script = .ok pieces)
    (hregions : ∀ r o g, .region r o ∈ segments → regionScript r o = .ok g → Worded P g.code)
    (hw : CodeWord ⟨.template, stack⟩ (Fragment.join "" pieces).code.toList w.toList) :
    w ∈ fixedWords ∨ P w := by
  induction h generalizing pieces with
  | nil =>
    cases hpieces
    exact absurd hw (not_codeWord_of_forall (List.forall_mem_nil _))
  | text =>
    obtain ⟨piece, rest, hpiece, hrest, hcode⟩ := exists_of_mapM_cons hpieces
    rw [List.mapM_nil] at hrest
    obtain rfl := Except.ok.inj hrest
    rw [hcode, show (Fragment.join "" []).code = "" from rfl, String.append_empty] at hw
    exact absurd hw (not_codeWord_text hpiece)
  | region _ ih =>
    obtain ⟨piece, rest, hpiece, hrest, hcode⟩ := exists_of_mapM_cons hpieces
    rw [hcode, String.toList_append] at hw
    rcases hw.of_append (seam_region hpiece _) with hw | ⟨t, ht, hw⟩
    · exact codeWord_region hpiece (.inl rfl) (hregions _ _ · (List.mem_cons_self ..)) hw
    · rw [run_region hpiece (.inl rfl)] at ht
      cases ht
      exact ih hrest (fun r o g hr => hregions r o g (List.mem_cons_of_mem _ hr)) hw
  | textRegion _ ih =>
    obtain ⟨piece, pieces, hpiece, hpieces, hcode⟩ := exists_of_mapM_cons hpieces
    obtain ⟨piece', rest, hpiece', hrest, hcode'⟩ := exists_of_mapM_cons hpieces
    obtain ⟨mode, hmode, hrun⟩ := run_text hpiece stack
    rw [hcode, hcode', String.toList_append, String.toList_append] at hw
    -- the region begins with a dollar, so no word goes on from the text into it
    have hfirst : (piece'.code.toList ++ (Fragment.join "" rest).code.toList).head?.all
        (fun c => !isRunPart c) = true := by
      obtain ⟨f, -, hf⟩ := exists_of_region hpiece'
      rw [hf]
      rfl
    rcases hw.of_append (seam_of_first hfirst) with hw | ⟨t, ht, hw⟩
    · exact absurd hw (not_codeWord_text hpiece)
    · rw [hrun] at ht
      cases ht
      rcases hw.of_append (seam_region hpiece' _) with hw | ⟨u, hu, hw⟩
      · exact codeWord_region hpiece' hmode (hregions _ _ · (by simp)) hw
      · rw [run_region hpiece' hmode] at hu
        cases hu
        exact ih hrest (fun r o g hr => hregions r o g (by simp [hr])) hw

end Segment

/-- The words of a text with regions are those of its regions. -/
theorem worded_template {P : String → Prop} {content : String} {offset : Nat}
    {segments : List Segment} {f : Fragment} (hsplit : Segment.split content offset = .ok segments)
    (h : templateScript content offset = .ok f)
    (hregions : ∀ r o g, .region r o ∈ segments → regionScript r o = .ok g → Worded P g.code) :
    Worded P f.code := by
  refine ⟨closed_templateScript h, fun w hw => ?_⟩
  obtain ⟨segments', hsplit', h⟩ := exists_of_bind_eq_ok h
  rw [hsplit] at hsplit'
  obtain rfl := Except.ok.inj hsplit'
  obtain ⟨pieces, hpieces, h⟩ := exists_of_bind_eq_ok h
  cases h
  have hcode : ("`" ++ (Fragment.join "" pieces).code ++ "`").toList =
      ['`'] ++ ((Fragment.join "" pieces).code.toList ++ ['`']) := by
    rw [String.toList_append, String.toList_append, List.append_assoc]
    rfl
  change CodeWord _ ("`" ++ (Fragment.join "" pieces).code ++ "`").toList _ at hw
  rw [hcode] at hw
  rcases hw.of_append (seam_of_last (by decide)) with hw | ⟨t, ht, hw⟩
  · exact absurd hw (not_codeWord_of_all rfl)
  · cases ht
    rcases hw.of_append (seam_of_first (by decide)) with hw | ⟨u, -, hw⟩
    · exact (Segment.apart_splitUpTo hsplit).codeWord hpieces hregions hw
    · exact absurd hw (not_codeWord_of_all rfl)

/-- A text that is put together from frames has only fixed words, besides those of what it writes
into plain code. -/
theorem Generated.worded {P : String → Prop} {text : String} (h : Generated (Worded P) text) :
    Worded P text := by
  induction h with
  | plain h => exact h
  | nat n => exact worded_nat n
  | int i => exact worded_int i
  | quoted text => exact worded_quoted text
  | template hsplit hf _ ih => exact worded_template hsplit hf ih
  | framed hframes _ ih =>
    cases hframes with
    | phrase p => exact Frame.worded_fill (Frame.speaks_phrase p) ih
    | method hm htext => exact Frame.worded_fill (Frame.speaks_method _ hm htext) ih

/-! ## Sources -/

/-- The texts that are read when a source is compiled: the source, and the regions of the texts that
its statements write as template literals. -/
inductive ReadFrom (source : String) : String → Prop
  | whole : ReadFrom source source
  | region {p : List Stmt} {stmt : Stmt} {content : String} {span : Span}
    {segments : List Segment} {r : String} {o : Nat} : parseProgram source = .ok p →
    stmt ∈ Stmt.nodesList p → stmt.interpolated? = some (content, span) →
    Segment.split content (span.start + 1) = .ok segments → .region r o ∈ segments →
      ReadFrom source r

/-- The words that come from a source: its names and those in its regions. Where it has a number
that is too large, there is `inf` besides. -/
inductive Spoken (source : String) : String → Prop
  | name {t w : String} {span : Span} : ReadFrom source t →
    .ok ⟨.name w, span⟩ ∈ (Stream.ofText t).items → Spoken source w
  | tooLarge {t literal : String} {v : Number} {span : Span} : ReadFrom source t →
    .ok ⟨.number v, span⟩ ∈ (Stream.ofText t).items → span.text? t = some literal →
    Number.TooLarge literal.toList → Spoken source "inf"

section Sources

variable {source t : String}

theorem worded_name {w : String} {span : Span} (hread : ReadFrom source t)
    (h : .ok ⟨.name w, span⟩ ∈ (Stream.ofText t).items) : Worded (Spoken source) w :=
  worded_of_isWord (isWord_of_mem_items h rfl) (.name hread h)

theorem worded_number {v : Number} {span : Span} (hread : ReadFrom source t)
    (h : .ok ⟨.number v, span⟩ ∈ (Stream.ofText t).items) : Worded (Spoken source) v.text := by
  obtain ⟨literal, htext, hwritten⟩ := Stream.exists_literal_of_mem h
  by_cases hlarge : Number.TooLarge literal.toList
  · rw [hwritten.text_of_tooLarge hlarge]
    exact worded_of_isWord (List.all_eq_true.1 rfl) (.tooLarge hread h htext hlarge)
  · exact (hwritten.numeral hlarge).worded

theorem wordsAll_worded (hread : ReadFrom source t) {ts : List (Located Token)}
    (hitems : (Stream.ofText t).items = ts.map Except.ok) :
    Grammar.WordsAll (Worded (Spoken source)) ts := by
  rintro ⟨value, span⟩ htoken w rfl
  exact worded_name hread (hitems ▸ List.mem_map_of_mem htoken)

/-- What an expression that is read from a text writes into plain code. -/
theorem worded_plainTexts (hread : ReadFrom source t) {ts : List (Located Token)}
    (hitems : (Stream.ofText t).items = ts.map Except.ok) {x : Expr}
    (hx : Grammar.Within Grammar.Derives ts x) :
    ∀ w ∈ x.plainTexts, Worded (Spoken source) w := by
  intro w hw
  by_cases hnumber : ∃ v span, x = .number v span
  · obtain ⟨v, span, rfl⟩ := hnumber
    obtain rfl := List.mem_singleton.1 hw
    obtain ⟨us, hus, hderives⟩ := hx
    obtain ⟨a, ha⟩ := hderives.number_mem (List.mem_cons_self ..)
    exact worded_number hread (hitems ▸ List.mem_map_of_mem (hus.subset ha))
  · refine hx.own_names (wordsAll_worded hread hitems) w ?_
    cases x with
    | number v span => exact absurd ⟨v, span, rfl⟩ hnumber
    | _ => exact hw

theorem plainAll_of_parseExpression (hread : ReadFrom source t) {e : Expr}
    (h : parseExpression t = .ok e) : e.PlainAll (Worded (Spoken source)) := by
  obtain ⟨o, ts, hitems, hexpr⟩ := expression_of_parseExpression h
  have hderives : Grammar.Derives ts e := ⟨o, hexpr⟩
  intro x hx
  exact worded_plainTexts hread hitems (hderives.of_mem_nodes hexpr.of_mem_inner x hx)

theorem plainAll_of_parseProgram {p : List Stmt} {stmt : Stmt} (h : parseProgram source = .ok p)
    (hraw : ∀ code span, .ok ⟨.raw code, span⟩ ∉ (Stream.ofText source).items)
    (hstmt : stmt ∈ Stmt.nodesList p) : stmt.PlainAll (Worded (Spoken source)) := by
  obtain ⟨ts, hitems, hp⟩ := statements_of_parseProgram h
  obtain ⟨us, hus, hderived⟩ := hp.of_mem_nodes stmt hstmt
  have hwords := (wordsAll_worded .whole hitems).of_stretch hus
  refine ⟨(hderived.names hwords).1, fun x hx => ?_, ?_, ?_⟩
  · rcases hderived.of_mem_exprs x hx with hderives | ⟨_, _, _, _, _, _, _, rfl⟩
    · exact worded_plainTexts .whole hitems (hderives.mono hus)
    · -- the step of a range that is not written
      intro w hw
      obtain rfl := List.mem_singleton.1 hw
      exact (@Number.numeral_of_ofParts .one ['1'] [] rfl (fun _ h => by cases h)).worded
  · intro content span htext segments hsplit r o hregion e he
    exact plainAll_of_parseExpression (.region h hstmt htext hsplit hregion) he
  · rintro code span rfl
    obtain ⟨a, ha⟩ := raw_mem_items_of_parseProgram h hstmt
    exact hraw code a ha

end Sources

/-- The script of a source is closed, so it is clear everywhere what is plain code, and the words in
plain code are fixed, or come from the source. A number is written as a numeral for it, unless it is
too large; then it is written as a word, although no name of the source is meant. -/
theorem compile_words {source : String} {f : Fragment} (h : compile source = .ok f)
    (hraw : ∀ code span, .ok ⟨.raw code, span⟩ ∉ (Stream.ofText source).items) :
    Closed f.code ∧
      (∀ w : String, CodeWord start f.code.toList w.toList → w ∈ fixedWords ∨ Spoken source w) ∧
      ∀ t v span, ReadFrom source t → .ok ⟨.number v, span⟩ ∈ (Stream.ofText t).items →
        ∃ literal g, span.text? t = some literal ∧ (Expr.number v span).script = .ok g ∧
          (Number.TooLarge literal.toList → g.code = "inf") ∧
          (¬ Number.TooLarge literal.toList → v.Numeral g.code.toList) := by
  obtain ⟨p, hp, hf⟩ := exists_of_bind_eq_ok h
  have hgenerated := generated_programScript
    (fun stmt hstmt => plainAll_of_parseProgram hp hraw hstmt) hf
  refine ⟨hgenerated.worded.closed, hgenerated.worded.known, fun t v span _ hitem => ?_⟩
  obtain ⟨literal, htext, hwritten⟩ := Stream.exists_literal_of_mem hitem
  exact ⟨literal, .text v.text, htext, rfl, hwritten.text_of_tooLarge, hwritten.numeral⟩

/-- Whether a token is a name, for sources to be checked by evaluation. -/
def isNameToken : Outcome → Bool
  | .ok token => match token.value with
    | .name _ => true
    | _ => false
  | .error _ => false

/-- A power of ten that is too large is written as a word that the source does not have. -/
theorem compile_words_inf :
    ∃ source f, source = String.ofList ("show 1".toList ++ List.replicate 309 '0' ++ [';']) ∧
      compile source = .ok f ∧ f.code = "console.log(inf);" ∧
      (∀ w : String, CodeWord start f.code.toList w.toList → w ∈ fixedWords ∨ Spoken source w) ∧
      CodeWord start f.code.toList "inf".toList ∧ "inf" ∉ fixedWords ∧
      ∀ w span, .ok ⟨.name w, span⟩ ∉ (Stream.ofText source).items := by
  let chars := "show 1".toList ++ List.replicate 309 '0' ++ [';']
  have hstream : Stream.ofText (String.ofList chars) =
      ⟨Cursor.outcomes chars.length ⟨0, chars⟩, Text.byteLength chars⟩ := by
    rw [Stream.ofText, String.toList_ofList]
  have hcompile : (compile (String.ofList chars)).toOption =
      some (.text "console.log(inf);") := by
    rw [compile, parseProgram, ParseState.ofText, hstream]
    decide +kernel
  have hall : (Stream.ofText (String.ofList chars)).items.all
      (fun outcome => !isRawBlock outcome && !isNameToken outcome) = true := by
    rw [hstream]
    decide +kernel
  have hraw : ∀ code span, .ok ⟨.raw code, span⟩ ∉ (Stream.ofText (String.ofList chars)).items := by
    intro code span hmem
    have hnot := List.all_eq_true.1 hall _ hmem
    cases hnot
  have hok := eq_ok_of_toOption hcompile
  refine ⟨_, _, rfl, hok, rfl, (compile_words hok hraw).2.1, ?_, by decide, ?_⟩
  · exact ⟨"console.log(".toList, ");".toList, [.paren], rfl, rfl, ⟨'i', ['n', 'f'], rfl, rfl⟩,
      List.all_eq_true.1 rfl, by rintro _ ⟨⟩; rfl, by rintro _ ⟨⟩; rfl⟩
  · intro w span hmem
    have hnot := List.all_eq_true.1 hall _ hmem
    cases hnot

end Resin
