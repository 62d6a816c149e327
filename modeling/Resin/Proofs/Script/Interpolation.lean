import Resin.Compile
import Resin.Proofs.Print.RoundTrip
import Resin.Proofs.Script.Places
import Resin.Proofs.Script.RegionPlaces
import Resin.Proofs.Token.Stretches

/-!
# Texts with several regions

A text is a first plain stretch with insets behind it: each is a region between brackets and the
plain stretch that follows it. If the brackets inside the regions are balanced, splitting the text
finds exactly these regions (`Segment.splitUpTo_group`), and the template literal is put together
from what each stretch and each region gives on its own (`templateScript_insets`). So a stored text
compiles to the scripts of its regions, whatever stands around them (`compile_store_insets`).
-/

namespace Resin

open Text

/-- No part of the text from its start on closes more brackets than it opens, and the whole text
closes all of them. -/
structure Balanced (cs : List Char) : Prop where
  opened : ∀ front, front <+: cs → front.count ']' ≤ front.count '['
  settled : cs.count ']' = cs.count '['

theorem balanced_iff_take {cs : List Char} : Balanced cs ↔
    (∀ n < cs.length + 1, (cs.take n).count ']' ≤ (cs.take n).count '[') ∧
      cs.count ']' = cs.count '[' := by
  constructor
  · intro h
    exact ⟨fun n _ => h.opened _ (List.take_prefix n cs), h.settled⟩
  · rintro ⟨hopened, hsettled⟩
    refine ⟨fun front hfront => ?_, hsettled⟩
    rw [List.prefix_iff_eq_take.1 hfront]
    exact hopened _ (Nat.lt_succ_of_le hfront.length_le)

instance (cs : List Char) : Decidable (Balanced cs) :=
  decidable_of_iff _ balanced_iff_take.symm

/-- A stretch of text that opens no region and does not end the literal it stands in. -/
structure PlainStretch (text : String) : Prop where
  bracket : '[' ∉ text.toList
  backtick : '\x60' ∉ text.toList

/-- A region of a text, by what stands between its brackets, the script it has, and the plain text
behind it. -/
structure Inset where
  inner : String
  script : Fragment
  behind : String

namespace Inset

/-- The expression in a region, without the blanks around it. -/
def source (i : Inset) : String :=
  String.ofList (trim i.inner.toList)

/-- The text in which insets stand behind a first stretch. -/
def text (first : String) : List Inset → String
  | [] => first
  | i :: is => first ++ "[" ++ i.inner ++ "]" ++ text i.behind is

/-- What stands in a template literal for the text: stretches are escaped, and the scripts of the
regions become substitutions. -/
def code (first : String) : List Inset → String
  | [] => Literal.template first
  | i :: is => Literal.template first ++ "$\x7b" ++ i.script.code ++ "\x7d" ++ code i.behind is

/-- The preambles that the regions rely on together. -/
def features (is : List Inset) : Features :=
  Fragment.allFeatures (is.map script)

/-- The region has balanced brackets and the script that it is said to have. -/
structure Fits (i : Inset) : Prop where
  balanced : Balanced i.inner.toList
  backtick : '\x60' ∉ i.inner.toList
  accepted : ∃ offset, regionScript i.source offset = .ok i.script
  behind : PlainStretch i.behind

/-- The script of a region is that of the expression in it. -/
theorem Fits.exists_script {i : Inset} (h : i.Fits) :
    ∃ e, parseExpression i.source = .ok e ∧ e.script = .ok i.script := by
  obtain ⟨offset, hscript⟩ := h.accepted
  unfold regionScript at hscript
  split at hscript
  · cases hscript
  · cases hexpression : expressionScript i.source with
    | error e =>
      rw [hexpression] at hscript
      cases hscript
    | ok f =>
      rw [hexpression] at hscript
      cases hscript
      exact exists_of_bind_eq_ok hexpression

theorem toList_text_cons (first : String) (i : Inset) (is : List Inset) :
    (text first (i :: is)).toList =
      first.toList ++ '[' :: (i.inner.toList ++ ']' :: (text i.behind is).toList) := by
  simp [text]

theorem length_le_text (first : String) (is : List Inset) :
    is.length ≤ (text first is).toList.length := by
  induction is generalizing first with
  | nil => exact Nat.zero_le _
  | cons i is ih =>
    have hrest := ih i.behind
    simp only [toList_text_cons, List.length_append, List.length_cons]
    omega

/-- Insets that fit put no backtick into a text. -/
theorem backtick_not_mem_text {first : String} {is : List Inset} (hfirst : PlainStretch first)
    (his : ∀ i ∈ is, i.Fits) : '\x60' ∉ (text first is).toList := by
  induction is generalizing first with
  | nil => exact hfirst.backtick
  | cons i is ih =>
    obtain ⟨hi, his⟩ := List.forall_mem_cons.1 his
    rw [toList_text_cons]
    simp [hfirst.backtick, hi.backtick, ih hi.behind his]

end Inset

/-! ## Finding the regions -/

namespace Segment

/-- The depth behind a character counts what the character opens or closes. -/
theorem count_cons_next {depth next : Nat} {c : Char} (hdepth : 0 < depth)
    (hnext : (if c = '[' then depth + 1 else if c = ']' then depth - 1 else depth) = next)
    (front : List Char) : (c :: front).count ']' + (next + front.count '[') =
      front.count ']' + (depth + (c :: front).count '[') := by
  subst hnext
  by_cases hleft : c = '['
  · subst hleft
    simp
    omega
  · by_cases hright : c = ']'
    · subst hright
      simp
      omega
    · simp [List.count_cons_of_ne, hleft, hright]

/-- The closing bracket is the first one that closes more than has been opened. -/
theorem closing?_append {depth : Nat} {cs : List Char} (after : List Char)
    (hopen : ∀ front, front <+: cs → front.count ']' < depth + front.count '[')
    (hlast : cs.count ']' + 1 = depth + cs.count '[') :
    closing? depth (cs ++ ']' :: after) = some (cs, after) := by
  induction cs generalizing depth with
  | nil =>
    obtain rfl : depth = 1 := by simpa using hlast.symm
    rfl
  | cons c cs ih =>
    rw [List.cons_append, closing?]
    generalize hnext : (if c = '[' then depth + 1 else if c = ']' then depth - 1 else depth) = next
    have hdepth : 0 < depth := by simpa using hopen [] (List.nil_prefix)
    have hc := count_cons_next hdepth hnext
    have hnonzero : next ≠ 0 := by
      have hfirst := hopen [c] (List.prefix_append [c] cs)
      have hdeeper := hc []
      simp only [List.count_nil] at hdeeper
      omega
    have hrest : closing? next (cs ++ ']' :: after) = some (cs, after) := by
      refine ih (fun front hfront => ?_) ?_
      · have hlonger := hopen (c :: front) (List.cons_prefix_cons.2 ⟨rfl, hfront⟩)
        have hdeeper := hc front
        omega
      · have hdeeper := hc cs
        omega
    simp only [hnonzero, if_false, hrest, Option.map_some]

theorem closing?_of_balanced {inner : List Char} (h : Balanced inner) (after : List Char) :
    closing? 1 (inner ++ ']' :: after) = some (inner, after) := by
  refine closing?_append after (fun front hfront => ?_) ?_
  · have hopened := h.opened front hfront
    omega
  · have hsettled := h.settled
    omega

theorem takeWhile_literal {literal : List Char} (h : '[' ∉ literal) (rest : List Char) :
    (literal ++ rest).takeWhile (· ≠ '[') = literal ++ rest.takeWhile (· ≠ '[') :=
  List.takeWhile_append_of_pos fun _ hc => decide_eq_true fun heq => h (heq ▸ hc)

theorem splitUpTo_plain {n offset : Nat} {literal : List Char} (hliteral : '[' ∉ literal) :
    splitUpTo (n + 1) offset literal = .ok (plain literal) := by
  have htake : literal.takeWhile (· ≠ '[') = literal := by
    simpa using takeWhile_literal hliteral []
  simp only [splitUpTo, htake, List.drop_length]

theorem takeWhile_bracket {literal : List Char} (h : '[' ∉ literal) (rest : List Char) :
    (literal ++ '[' :: rest).takeWhile (· ≠ '[') = literal := by
  simpa using takeWhile_literal h ('[' :: rest)

/-- Splitting a text finds a region with balanced brackets, and goes on behind it. -/
theorem splitUpTo_group {n offset : Nat} {literal inner after : List Char}
    (hliteral : '[' ∉ literal) (hinner : Balanced inner) :
    splitUpTo (n + 1) offset (literal ++ '[' :: (inner ++ ']' :: after)) =
      (splitUpTo n (offset + byteLength literal + byteLength inner + 2) after).map fun segments =>
        plain literal ++ ofInner inner (offset + byteLength literal + 1) :: segments := by
  simp only [splitUpTo, takeWhile_bracket hliteral, List.drop_left, closing?_of_balanced hinner]
  rfl

theorem splitUpTo_inset {n offset : Nat} {literal inner after : List Char}
    (hliteral : '[' ∉ literal) (hinner : Balanced inner) {segments : List Segment}
    (h : splitUpTo n (offset + byteLength literal + byteLength inner + 2) after = .ok segments) :
    splitUpTo (n + 1) offset (literal ++ '[' :: (inner ++ ']' :: after)) =
      .ok (plain literal ++ ofInner inner (offset + byteLength literal + 1) :: segments) := by
  rw [splitUpTo_group hliteral hinner, h]
  rfl

end Segment

/-! ## Putting the template literal together -/

namespace Fragment

theorem empty_append (f : Fragment) : text "" ++ f = f := by
  show Fragment.mk ("" ++ f.code) (Features.none.union f.features) = f
  rw [String.empty_append, Features.none_union]

theorem text_append_text (a b : String) (f : Fragment) :
    text a ++ f ++ text b = ⟨a ++ f.code ++ b, f.features⟩ := by
  show Fragment.mk _ ((Features.none.union f.features).union .none) = _
  rw [Features.none_union, Features.union_none]
  rfl

end Fragment

/-- The pieces of a text, in front of other pieces. -/
theorem Segment.mapM_script_plain (first : String) {segments : List Segment}
    {pieces : List Fragment} (h : segments.mapM Segment.script = .ok pieces) :
    ∃ all, (Segment.plain first.toList ++ segments).mapM Segment.script = .ok all ∧
      Fragment.join "" all = .text (Literal.template first) ++ Fragment.join "" pieces := by
  unfold Segment.plain
  split
  · next hempty =>
    have hfirst : first = "" := by simpa using hempty
    subst hfirst
    exact ⟨pieces, h, (Fragment.empty_append _).symm⟩
  · refine ⟨.text (Literal.template first) :: pieces, ?_, Fragment.join_empty_cons _ _⟩
    rw [List.singleton_append, List.mapM_cons, h, String.ofList_toList]
    rfl

namespace Inset

variable {first : String} {is : List Inset}

/-- Splitting the text and giving every segment its script gives the code of the insets. -/
theorem join_splitUpTo (hfirst : PlainStretch first) (his : ∀ i ∈ is, i.Fits) {n : Nat}
    (hn : is.length < n) (offset : Nat) :
    ∃ segments pieces, Segment.splitUpTo n offset (text first is).toList = .ok segments ∧
      segments.mapM Segment.script = .ok pieces ∧
      Fragment.join "" pieces = ⟨code first is, features is⟩ := by
  induction is generalizing first n offset with
  | nil =>
    obtain ⟨n, rfl⟩ := Nat.exists_eq_succ_of_ne_zero (Nat.ne_of_gt hn)
    obtain ⟨pieces, hpieces, hjoin⟩ := @Segment.mapM_script_plain first [] [] rfl
    rw [List.append_nil] at hpieces
    exact ⟨_, pieces, Segment.splitUpTo_plain hfirst.bracket, hpieces,
      hjoin.trans (Fragment.append_empty _)⟩
  | cons i is ih =>
    obtain ⟨hi, his⟩ := List.forall_mem_cons.1 his
    obtain ⟨n, rfl⟩ := Nat.exists_eq_succ_of_ne_zero (Nat.ne_of_gt (Nat.zero_lt_of_lt hn))
    let bracket := offset + byteLength first.toList
    obtain ⟨segments, pieces, hsegments, hpieces, hjoin⟩ :=
      ih hi.behind his (Nat.lt_of_succ_lt_succ hn) (bracket + byteLength i.inner.toList + 2)
    obtain ⟨m, hm⟩ := hi.accepted
    have hregion : (Segment.ofInner i.inner.toList (bracket + 1)).script =
        .ok ⟨"$\x7b" ++ i.script.code ++ "\x7d", i.script.features⟩ := by
      show (regionScript i.source _ >>= _) = _
      rw [(agree_regionScript i.source m _).eq_ok hm, ← Fragment.text_append_text]
      rfl
    have hmore : (Segment.ofInner i.inner.toList (bracket + 1) :: segments).mapM Segment.script =
        .ok (⟨"$\x7b" ++ i.script.code ++ "\x7d", i.script.features⟩ :: pieces) := by
      rw [List.mapM_cons, hregion, hpieces]
      rfl
    obtain ⟨all, hall, hjoined⟩ := Segment.mapM_script_plain first hmore
    refine ⟨_, all, ?_, hall, ?_⟩
    · rw [toList_text_cons]
      exact Segment.splitUpTo_inset hfirst.bracket hi.balanced hsegments
    · have hcode : Literal.template first ++
          ("$\x7b" ++ i.script.code ++ "\x7d" ++ code i.behind is) = code first (i :: is) := by
        simp only [code, String.append_assoc]
      rw [hjoined, Fragment.join_empty_cons, hjoin, ← hcode]
      show Fragment.mk _ (Features.none.union _) = _
      rw [Features.none_union]
      rfl

end Inset

/-- The template literal of a text with insets. -/
theorem templateScript_insets {first : String} {is : List Inset} (hfirst : PlainStretch first)
    (his : ∀ i ∈ is, i.Fits) (offset : Nat) :
    templateScript (Inset.text first is) offset =
      .ok ⟨"`" ++ Inset.code first is ++ "`", Inset.features is⟩ := by
  have hlength : is.length < (Inset.text first is).toList.length + 1 :=
    Nat.lt_succ_of_le (Inset.length_le_text first is)
  obtain ⟨segments, pieces, hsegments, hpieces, hjoin⟩ :=
    Inset.join_splitUpTo hfirst his hlength offset
  have hsplit : Segment.split (Inset.text first is) offset = .ok segments := hsegments
  have hscript : templateScript (Inset.text first is) offset =
      .ok ("`" ++ Fragment.join "" pieces ++ "`") := by
    rw [templateScript, hsplit]
    show (segments.mapM Segment.script >>= _) = _
    rw [hpieces]
    rfl
  rw [hscript, hjoin, Fragment.text_append_text]

/-- A text between backticks has the same script wherever its declaration stands. -/
theorem Stmt.script_store_insets {first : String} {is : List Inset} {m : Nat}
    (hfirst : PlainStretch first) (his : ∀ i ∈ is, i.Fits)
    (hcalls : Segment.refuseBareCalls (Inset.text first is) m = .ok ())
    (typed : List String) (binding : Binding) (name : String) (place span : Span) :
    Stmt.script typed (.store ⟨binding, name, Inset.text first is, .backtick, place⟩ span) =
      .ok ⟨binding.script ++ " " ++ name ++ " = `" ++ Inset.code first is ++ "`;",
        Inset.features is⟩ := by
  have hcalls' : Segment.refuseBareCalls (Inset.text first is) (place.start + 1) = .ok () :=
    (Segment.agree_refuseBareCalls _ m _).eq_ok hcalls
  have hscript : Store.script ⟨binding, name, Inset.text first is, .backtick, place⟩ =
      .ok (.text (binding.script ++ " " ++ name ++ " = ") ++
        ⟨"`" ++ Inset.code first is ++ "`", Inset.features is⟩ ++ ";") := by
    unfold Store.script
    simp only [hcalls', templateScript_insets hfirst his]
    rfl
  have hcode :
      binding.script ++ " " ++ name ++ " = " ++ ("`" ++ Inset.code first is ++ "`") ++ ";" =
      binding.script ++ " " ++ name ++ " = `" ++ Inset.code first is ++ "`;" := by
    have hopen : " = `" = " = " ++ "`" := rfl
    have hclose : "`;" = "`" ++ ";" := rfl
    rw [hopen, hclose]
    simp only [String.append_assoc]
  rw [Stmt.script, hscript, Fragment.text_append_text, hcode]

/-! ## Storing a text -/

/-- A text between backticks is read behind a space. -/
theorem next?_backtick {c : Cursor} {text : String} {rest : List Char} (h : '\x60' ∉ text.toList)
    (hc : c.rest = ' ' :: '\x60' :: (text.toList ++ ['\x60'] ++ rest)) :
    ∃ span after, c.next? = some (.ok ⟨.text text .backtick, span⟩, after) ∧ after.rest = rest := by
  let stop := c.offset + 1 + byteLength ('\x60' :: (text.toList ++ ['\x60']))
  refine ⟨⟨c.offset + 1, stop⟩, ⟨stop, rest⟩, Cursor.next?_eq_ok_iff.2 ?_, rfl⟩
  refine ⟨[' '], '\x60', text.toList ++ ['\x60'], hc, ?_, ?_, rfl, rfl, rfl⟩
  · rw [hc]
    rfl
  · exact @readsBack_text text .backtick rest h

/-- The source of a stored text gives the tokens of its declaration, whatever the text. -/
theorem items_store {text : String} (h : '\x60' ∉ text.toList) :
    ∃ a b c d e, (Stream.ofText ("store s = `" ++ text ++ "`;")).items =
      [kw .store a, word "s" b, sym .assign c, ⟨.text text .backtick, d⟩, sym .semicolon e].map
        .ok := by
  let literal := ' ' :: '\x60' :: (text.toList ++ ['\x60'] ++ ([';'] ++ []))
  have hsource : (Cursor.ofText ("store s = `" ++ text ++ "`;")).rest =
      [] ++ (['s', 't', 'o', 'r', 'e'] ++ ([' '] ++ (['s'] ++ ([' '] ++ (['='] ++ literal))))) := by
    simp [Cursor.ofText, literal]
  have hspace {cs : List Char} : Apart (' ' :: cs) := fun _ hc => (Option.some.inj hc).symm
  have hend : Apart [] := fun _ hc => nomatch hc
  have hkeyword : Spells ['s', 't', 'o', 'r', 'e'] (.keyword .store) :=
    @spells_word "store" _ (by decide) (by decide) (by decide)
  have hname : Spells ['s'] (.name "s") := @spells_word "s" _ (by decide) (by decide) (by decide)
  have hsymbols : Spells ['='] (.symbol .assign) ∧ Spells [';'] (.symbol .semicolon) :=
    ⟨⟨_, _, rfl, by decide, fun rest hrest => readsBack_symbol rfl hrest⟩,
      ⟨_, _, rfl, by decide, fun rest hrest => readsBack_symbol rfl hrest⟩⟩
  obtain ⟨a, _, hstore, hrest⟩ := next?_of_spells (.inl rfl) hkeyword hspace hsource
  obtain ⟨b, _, hs, hrest⟩ := next?_of_spells (.inr rfl) hname hspace hrest
  obtain ⟨c, _, hassign, hrest⟩ := next?_of_spells (.inr rfl) hsymbols.1 hspace hrest
  obtain ⟨d, _, htext, hrest⟩ := next?_backtick h hrest
  obtain ⟨e, _, hsemicolon, hrest⟩ := next?_of_spells (.inl rfl) hsymbols.2 hend hrest
  refine ⟨a, b, c, d, e, Stream.items_of_lexes ?_ (Cursor.next?_of_rest_eq_nil hrest)⟩
  exact .cons hstore (.cons hs (.cons hassign (.cons htext (.cons hsemicolon .nil))))

/-- The declaration of a stored text is read as such, whatever the text. -/
theorem parseProgram_store {text : String} (h : '\x60' ∉ text.toList) :
    ∃ place span, parseProgram ("store s = `" ++ text ++ "`;") =
      .ok [.store ⟨.plain, "s", text, .backtick, place⟩ span] := by
  obtain ⟨a, b, c, d, e, hitems⟩ := items_store h
  have hstore : Grammar.Statement Expr.IsDispatch
      [kw .store a, word "s" b, sym .assign c, ⟨.text text .backtick, d⟩, sym .semicolon e] _ :=
    .store .plain rfl
  exact ⟨d, _, parseProgram_of_statements hitems (.cons hstore .nil)⟩

/-- Storing a text with any number of regions: the script has the stretches, escaped, and the
scripts of the regions in their order, and relies on what these rely on. The script of a region is
that of the expression in it, read on its own, and the declaration has the same script in every
program. -/
theorem compile_store_insets {first : String} {is : List Inset} {m : Nat}
    (hfirst : PlainStretch first) (his : ∀ i ∈ is, i.Fits)
    (hcalls : Segment.refuseBareCalls (Inset.text first is) m = .ok ()) :
    compile ("store s = `" ++ Inset.text first is ++ "`;") =
        .ok ⟨"let s = `" ++ Inset.code first is ++ "`;", Inset.features is⟩ ∧
      (∀ i ∈ is, ∃ e, parseExpression i.source = .ok e ∧ e.script = .ok i.script) ∧
      ∀ (typed : List String) (binding : Binding) (name : String) (place span : Span),
        Stmt.script typed (.store ⟨binding, name, Inset.text first is, .backtick, place⟩ span) =
          .ok ⟨binding.script ++ " " ++ name ++ " = `" ++ Inset.code first is ++ "`;",
            Inset.features is⟩ := by
  have hscript := Stmt.script_store_insets hfirst his hcalls
  refine ⟨?_, fun i hi => (his i hi).exists_script, hscript⟩
  obtain ⟨place, span, hparse⟩ := parseProgram_store (Inset.backtick_not_mem_text hfirst his)
  rw [compile, hparse]
  show (Stmt.scripts [] _ >>= _) = _
  rw [Stmt.scripts, hscript]
  show Except.ok (Fragment.join "\n" [_]) = _
  rw [Fragment.join_singleton]
  rfl

/-- A lambda with brackets of its own between blanks, a line of input, a stray bracket in front of
them and one behind, and a dollar and a brace that the first region keeps apart. -/
theorem compile_store_insets_lambda : ∃ first is,
    Inset.text first is = "recall]$[ [x, y] -> [x] + y ]\x7b\\[:input] ]" ∧ PlainStretch first ∧
      (∀ i ∈ is, i.Fits) ∧ Segment.refuseBareCalls (Inset.text first is) 0 = .ok () ∧
      compile "store s = `recall]$[ [x, y] -> [x] + y ]\x7b\\[:input] ]`;" =
        .ok ⟨"let s = `recall]$$\x7b((x, y) => (x + y))\x7d\x7b\\\\$\x7b__epx_input()\x7d ]`;",
          ⟨false, true⟩⟩ := by
  let sum : Inset := ⟨" [x, y] -> [x] + y ", .text "((x, y) => (x + y))", "\x7b\\"⟩
  let line : Inset := ⟨":input", .reading "__epx_input()", " ]"⟩
  have hfirst : PlainStretch "recall]$" := ⟨by decide, by decide⟩
  have haccepted : (regionScript sum.source 0).toOption = some sum.script ∧
      (regionScript line.source 0).toOption = some line.script := by decide +kernel
  have hsum : sum.Fits :=
    ⟨by decide, by decide, ⟨0, eq_ok_of_toOption haccepted.1⟩, ⟨by decide, by decide⟩⟩
  have hline : line.Fits :=
    ⟨by decide, by decide, ⟨0, eq_ok_of_toOption haccepted.2⟩, ⟨by decide, by decide⟩⟩
  have his : ∀ i ∈ [sum, line], i.Fits := by
    simp only [List.forall_mem_cons, List.not_mem_nil, false_imp_iff, implies_true, and_true]
    exact ⟨hsum, hline⟩
  have hcalls : Segment.refuseBareCalls (Inset.text "recall]$" [sum, line]) 0 = .ok () := by
    have h : (Segment.refuseBareCalls (Inset.text "recall]$" [sum, line]) 0).toOption =
        some () := by
      decide +kernel
    exact eq_ok_of_toOption h
  have htext : Inset.text "recall]$" [sum, line] =
      "recall]$[ [x, y] -> [x] + y ]\x7b\\[:input] ]" := by decide +kernel
  have hcode : Inset.code "recall]$" [sum, line] =
      "recall]$$\x7b((x, y) => (x + y))\x7d\x7b\\\\$\x7b__epx_input()\x7d ]" := by decide +kernel
  have hcompile := (compile_store_insets hfirst his hcalls).1
  rw [htext, hcode] at hcompile
  exact ⟨"recall]$", [sum, line], htext, hfirst, his, hcalls, hcompile⟩

end Resin
