import StraightLine.Proofs.Blocks
import StraightLine.Proofs.Shape

/-!
# Declarations of string constants

A string declaration names constants with their contents in quotes. A content may hold every sign that
the declaration is cut at: quotes keep its commas, the first `:=` is that of the name, and what a literal
ends with is its quote. So each content comes back unchanged in the line that declares the constant.
-/

namespace StraightLine

/-! ## Cutting outside quotes -/

namespace Text

variable {sep : Char}

theorem splitOutsideQuotes_append {quoted : Bool} {p : Text} (hquote : '"' ∉ p)
    (hsep : sep ∉ p ∨ quoted = true) (t : Text) :
    splitOutsideQuotes sep quoted (p ++ t) =
      (splitOutsideQuotes sep quoted t).modifyHead (p ++ ·) := by
  induction p with
  | nil => exact (congrFun List.modifyHead_id _).symm
  | cons c p ih =>
    simp only [List.mem_cons, not_or] at hquote hsep
    have hcut : (c = sep && !quoted) = false := by
      obtain h | h := hsep
      · simp [Ne.symm h.1]
      · simp [h]
    have hrest := ih hquote.2 (hsep.imp_left And.right)
    rw [List.cons_append, splitOutsideQuotes, if_neg (Ne.symm hquote.1), hcut, hrest]
    simp [Function.comp_def]

theorem splitOutsideQuotes_quoted {p : Text} (hquote : '"' ∉ p) (t : Text) :
    splitOutsideQuotes sep false ('"' :: (p ++ '"' :: t)) =
      (splitOutsideQuotes sep false t).modifyHead ('"' :: (p ++ ['"']) ++ ·) := by
  have hclose : splitOutsideQuotes sep true ('"' :: t) =
      (splitOutsideQuotes sep false t).modifyHead ('"' :: ·) := by
    rw [splitOutsideQuotes, if_pos rfl]
    rfl
  rw [splitOutsideQuotes, if_pos rfl, Bool.not_false, splitOutsideQuotes_append hquote (.inr rfl),
    hclose]
  simp [Function.comp_def]

theorem trimmed_of_ends {t : Text} {first last : Char} (hhead : t.head? = some first)
    (hlast : t.getLast? = some last) (hfirst : isBlank first = false)
    (hend : isBlank last = false) : Trimmed t := by
  refine ⟨?_, ?_⟩
  · intro c hc
    rw [hhead] at hc
    cases hc
    exact hfirst
  · intro c hc
    rw [hlast] at hc
    cases hc
    exact hend

end Text

/-! ## Spelled declarations -/

namespace Declaration

structure Constant where
  name : Text
  content : Text
  name_ne_nil : name ≠ []
  solid : ∀ c ∈ name, Text.isBlank c = false
  comma : ',' ∉ name
  quote : '"' ∉ name
  becomes : ¬ [':', '='] <:+: name
  plain : '"' ∉ content

namespace Constant

def literal (k : Constant) : Text := '"' :: (k.content ++ ['"'])

def symbol (k : Constant) : Symbol := ⟨k.name, .str k.literal⟩

def line (k : Constant) : Text :=
  "str ".toList ++ k.name ++ " \"".toList ++ k.content ++ "\"".toList

end Constant

/-- The text lists the constants, of which there is at least one, with commas between them, a semicolon at
the end and blanks around names and literals. -/
inductive Listed : List Constant → Text → Prop
  | last {k : Constant} {lhs rhs : Text} : Text.Padded k.name lhs → Text.Padded k.literal rhs →
      Listed [k] (lhs ++ ':' :: '=' :: (rhs ++ [';']))
  | cons {k : Constant} {ks : List Constant} {lhs rhs t : Text} : Text.Padded k.name lhs →
      Text.Padded k.literal rhs → Listed ks t →
      Listed (k :: ks) (lhs ++ ':' :: '=' :: (rhs ++ ',' :: t))

def Spelled (ks : List Constant) (text : Text) : Prop :=
  ∃ list, Listed ks list ∧ Text.Padded ("STRING".toList ++ list) text

section
variable {k : Constant} {lhs rhs : Text}

theorem Constant.getLast?_literal (k : Constant) : k.literal.getLast? = some '"' := by
  rw [literal, ← List.cons_append, List.getLast?_concat]

theorem Constant.trimmed_literal (k : Constant) : Text.Trimmed k.literal :=
  Text.trimmed_of_ends rfl k.getLast?_literal (by decide) (by decide)

theorem string_of_padded (hname : Text.Padded k.name lhs) {rest : Text}
    (hrest : Text.unterminated rest = k.literal) :
    string (lhs ++ ':' :: '=' :: rest) = .ok k.symbol := by
  have hcut := Text.cutAtBecomes?_append (Text.not_becomes_of_padded k.becomes hname) rest
  have htrim := Text.trim_of_padded k.solid hname
  simp only [string, hcut, htrim, hrest, List.isEmpty_iff, if_neg k.name_ne_nil]
  rfl

theorem splitOutsideQuotes_of_padded (hname : Text.Padded k.name lhs)
    (hliteral : Text.Padded k.literal rhs) (t : Text) :
    Text.splitOutsideQuotes ',' false (lhs ++ ':' :: '=' :: (rhs ++ t)) =
      (Text.splitOutsideQuotes ',' false t).modifyHead (lhs ++ ':' :: '=' :: rhs ++ ·) := by
  obtain ⟨u, v, hu, hv, rfl⟩ := hliteral
  have hbefore : ∀ c, Text.isBlank c = false → c ≠ ':' → c ≠ '=' → c ∉ k.name →
      c ∉ lhs ++ ':' :: '=' :: u := by
    intro c hc hcolon hequals hmem
    simp [Text.not_mem_of_padded hc hmem hname, hu.not_mem hc, hcolon, hequals]
  have hquote := hbefore '"' (by decide) (by decide) (by decide) k.quote
  have hcomma := hbefore ',' (by decide) (by decide) (by decide) k.comma
  have htext : lhs ++ ':' :: '=' :: (u ++ k.literal ++ v ++ t) =
      lhs ++ ':' :: '=' :: u ++ '"' :: (k.content ++ '"' :: (v ++ t)) := by
    simp [Constant.literal]
  rw [htext, Text.splitOutsideQuotes_append hquote (.inl hcomma),
    Text.splitOutsideQuotes_quoted k.plain,
    Text.splitOutsideQuotes_append (hv.not_mem (by decide)) (.inl (hv.not_mem (by decide)))]
  simp [Function.comp_def, Constant.literal]

theorem not_isEmpty_trim_becomes (rest : Text) :
    (!(Text.trim (lhs ++ ':' :: '=' :: rest)).isEmpty) = true := by
  have hne : Text.trim (lhs ++ ':' :: '=' :: rest) ≠ [] :=
    Text.trim_ne_nil_iff.mpr ⟨':', by simp, by decide⟩
  simpa using hne

/-- Each segment is cut out whole and declares its constant. -/
theorem Listed.map_string {ks : List Constant} {t : Text} (h : Listed ks t) :
    (Text.segments ',' t).map string = ks.map fun k => .ok k.symbol := by
  unfold Text.segments
  induction h with
  | @last k lhs rhs hname hliteral =>
    have hstring := string_of_padded hname
      (Text.unterminated_of_padded_semicolon k.trimmed_literal (by simp [Constant.literal]) hliteral)
    have hsplit : Text.splitOutsideQuotes ',' false [';'] = [[';']] := rfl
    rw [splitOutsideQuotes_of_padded hname hliteral, hsplit]
    simp [not_isEmpty_trim_becomes, hstring]
  | @cons k ks lhs rhs t hname hliteral _ ih =>
    have hlast : k.literal.getLast? ≠ some ';' := by
      rw [k.getLast?_literal]
      decide
    have hstring := string_of_padded hname
      (Text.unterminated_of_padded k.trimmed_literal hlast hliteral)
    have hsplit : Text.splitOutsideQuotes ',' false (',' :: t) =
        [] :: Text.splitOutsideQuotes ',' false t := rfl
    rw [splitOutsideQuotes_of_padded hname hliteral, hsplit]
    simp [not_isEmpty_trim_becomes, hstring, ih]

end

theorem Listed.getLast? {ks : List Constant} {t : Text} (h : Listed ks t) : t.getLast? = some ';' := by
  induction h with
  | last => simp [List.getLast?_append, List.getLast?_cons]
  | cons _ _ _ ih => simp [List.getLast?_append, List.getLast?_cons, ih]

theorem Spelled.strings {ks : List Constant} {text : Text} (h : Spelled ks text) :
    strings text = ks.map fun k => .ok k.symbol := by
  obtain ⟨list, hlist, hpadded⟩ := h
  have hlast : ("STRING".toList ++ list).getLast? = some ';' := by
    rw [List.getLast?_append, hlist.getLast?]
    rfl
  have htrimmed : Text.Trimmed ("STRING".toList ++ list) :=
    Text.trimmed_of_ends rfl hlast (by decide) (by decide)
  have hbody : "STRING".toList.isPrefixOf? ("STRING".toList ++ list) = some list := rfl
  unfold Declaration.strings segments
  rw [htrimmed.trim_of_padded hpadded]
  simp only [hbody, Option.getD_some, hlist.map_string]

theorem Spelled.ofStringDecl {ks : List Constant} {text : Text} (h : Spelled ks text) :
    Effect.ofStringDecl text = { symbols := ks.map (·.symbol) } := by
  simp [Effect.ofStringDecl, h.strings, List.filterMap_map]

theorem Constant.line_symbol (k : Constant) : k.symbol.line = k.line := by
  have hcontent : k.content.filter (· ≠ '"') = k.content := by
    rw [List.filter_eq_self]
    intro c hc
    exact decide_eq_true fun e => k.plain (e ▸ hc)
  have hunquoted : k.literal.filter (· ≠ '"') = k.content := by
    rw [literal, List.filter_cons_of_neg (by decide), List.filter_append, hcontent]
    simp
  simp only [Symbol.line, symbol, hunquoted]
  rfl

end Declaration

/-! ## Declared constants -/

open Declaration (Constant Spelled)

section
variable {ks : List Constant} {text : Text}

theorem Traversal.visit_string_of_spelled (options : Options) (hnodup : (ks.map (·.name)).Nodup)
    (h : Spelled ks text) :
    visit { context := { options } } (.string text) =
      { context := { options, scopes := { root := ⟨0, none, ⟨ks.map (·.symbol)⟩⟩ } } } := by
  have htable : SymbolTable.insertAll {} (ks.map (·.symbol)) = ⟨ks.map (·.symbol)⟩ := by
    apply SymbolTable.insertAll_of_nodup
    rw [List.map_map]
    exact hnodup
  simp only [visit, effect, Construct.effect, h.ofStringDecl, apply, ScopeStack.declareAll,
    ScopeStack.modifyCurrent, htable, List.append_nil, Nat.add_zero]

theorem Declaration.map_render_constants (ks : List Constant) (blocks : List Tiny.Instr) :
    ((ks.map (·.symbol)).map Symbol.declaration ++ blocks ++ [Tiny.Instr.halt]).map Tiny.Instr.render =
      ks.map (·.line) ++ blocks.map Tiny.Instr.render ++ ["sys halt".toList] := by
  rw [Context.map_render_code, List.map_map]
  simp only [Function.comp_def, Constant.line_symbol]

/-- Constants that are declared in a fresh context are there as they were spelled, and whatever is emitted
after declares them with their contents. -/
theorem Context.compile_string_constants (options : Options) (hnodup : (ks.map (·.name)).Nodup)
    (h : Spelled ks text) :
    Traversal.visit { context := { options } } (.string text) =
        { context := { options, scopes := { root := ⟨0, none, ⟨ks.map (·.symbol)⟩⟩ } } } ∧
      (∀ m : Recording, (∀ r ∈ m.records, ¬ r.Malformed) →
        ∃ e, (Traversal.visit { context := { options } } (.string text)).context.emit m = .ok e ∧
          e.code.map Tiny.Instr.render = ks.map (·.line) ++
            ((m.blocks options).flatMap Block.code).map Tiny.Instr.render ++ ["sys halt".toList]) ∧
      (compile { options } [.string text]).listing.texts =
        [";IR code".toList, ";LABEL main".toList, ";LINK".toList, ";RET".toList,
          ";tiny code".toList] ++ ks.map (·.line) ++ ["sys halt".toList] := by
  have hvisit := Traversal.visit_string_of_spelled options hnodup h
  refine ⟨hvisit, ?_, ?_⟩
  · rw [hvisit]
    intro m hgood
    obtain ⟨e, he⟩ := Recording.exists_emit hgood options ⟨ks.map (·.symbol)⟩
    refine ⟨e, he, ?_⟩
    rw [Recording.code_of_emit he, Declaration.map_render_constants]
  have hir : (compile { options } [.string text]).ir = IR.header := by
    rw [compile_ir, Traversal.visitAll_cons, hvisit]
    rfl
  have hsymbols : (compile { options } [.string text]).context.scopes.root.symbols.symbols =
      ks.map (·.symbol) := congrArg (·.context.scopes.root.symbols.symbols) hvisit
  -- Nothing is recorded, so either order has no blocks to lay out.
  obtain ⟨e, he, hblocks⟩ : ∃ e, (compile { options } [.string text]).emission = .ok e ∧
      (compile { options } [.string text]).recording.blocks options = [] := by
    obtain ⟨policy, order, registerStem, tempStem⟩ := options
    cases order <;> exact ⟨_, rfl, rfl⟩
  have hframe : (IR.header ++ [IR.Instr.ret, .tinyCode]).map IR.Instr.render =
      [";IR code".toList, ";LABEL main".toList, ";LINK".toList, ";RET".toList,
        ";tiny code".toList] := rfl
  rw [texts_of_emission he, hir, hframe, code_of_emission he, hsymbols, hblocks,
    Declaration.map_render_constants, List.flatMap_nil, List.map_nil, List.append_nil,
    List.append_assoc]

/-- A name with a part of `:=` and a content that holds every sign the declaration is cut at. -/
def Declaration.delimited : Constant where
  name := "a:".toList
  content := " x, y := 1; ".toList
  name_ne_nil := by decide
  solid := Text.isBlank_of_all (by decide)
  comma := by decide
  quote := by decide
  becomes := by decide
  plain := by decide

def Declaration.hollow : Constant where
  name := "=b".toList
  content := []
  name_ne_nil := by decide
  solid := Text.isBlank_of_all (by decide)
  comma := by decide
  quote := by decide
  becomes := by decide
  plain := by decide

theorem Context.compile_delimited :
    (["a:".toList, "=b".toList] : List Text).Nodup ∧
      Spelled [Declaration.delimited, Declaration.hollow]
        " STRINGa:\t:=\" x, y := 1; \"\u2003,=b :=\"\" ;\n".toList ∧
      (compile {} [.string " STRINGa:\t:=\" x, y := 1; \"\u2003,=b :=\"\" ;\n".toList]).listing.texts =
        [";IR code".toList, ";LABEL main".toList, ";LINK".toList, ";RET".toList,
          ";tiny code".toList, "str a: \" x, y := 1; \"".toList, "str =b \"\"".toList,
          "sys halt".toList] := by
  have hnodup : ([Declaration.delimited, Declaration.hollow].map (·.name)).Nodup := by decide
  have hfirst : Text.Padded Declaration.delimited.name "a:\t".toList :=
    ⟨[], ['\t'], by decide, by decide, rfl⟩
  have hcontent : Text.Padded Declaration.delimited.literal "\" x, y := 1; \"\u2003".toList :=
    ⟨[], ['\u2003'], by decide, by decide, rfl⟩
  have hsecond : Text.Padded Declaration.hollow.name "=b ".toList :=
    ⟨[], [' '], by decide, by decide, rfl⟩
  have hempty : Text.Padded Declaration.hollow.literal "\"\" ".toList :=
    ⟨[], [' '], by decide, by decide, rfl⟩
  have hlist := Declaration.Listed.cons hfirst hcontent (.last hsecond hempty)
  have hspelled : Spelled [Declaration.delimited, Declaration.hollow]
      " STRINGa:\t:=\" x, y := 1; \"\u2003,=b :=\"\" ;\n".toList :=
    ⟨_, hlist, [' '], ['\n'], by decide, by decide, by decide⟩
  exact ⟨hnodup, hspelled, (compile_string_constants {} hnodup hspelled).2.2⟩

end

end StraightLine
