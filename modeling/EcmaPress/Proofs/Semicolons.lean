import EcmaPress.Proofs.Closings
import EcmaPress.Proofs.Concatenation
import EcmaPress.Tree.Node

/-!
# Dropped semicolons

A printer that drops semicolons writes the tokens that it writes otherwise, but for semicolons that
end a statement and stand before a closing brace or at the end. All of these are dropped, and each
statement of a kind that ends in a semicolon has one of its own.
-/

namespace EcmaPress

open Piece

/-! ### Semicolons and statements -/

namespace Piece

/-- How many statements are ended by the semicolons of pieces. -/
def ends (ps : List Piece) : Nat :=
  ps.countP isTerminator

@[simp] theorem ends_nil : ends [] = 0 := rfl

section

variable (ps qs : List Piece)

@[simp] theorem ends_append : ends (ps ++ qs) = ends ps + ends qs :=
  List.countP_append

@[simp] theorem ends_terminator (last : Bool) : ends (terminator last :: ps) = ends ps + 1 :=
  List.countP_cons_of_pos rfl

@[simp] theorem ends_token (s : String) (origin : Option Position) (shape : Shape) :
    ends (token s origin shape :: ps) = ends ps := rfl

@[simp] theorem ends_sign (s : String) : ends (sign s :: ps) = ends ps := rfl

@[simp] theorem ends_mapped (s : String) (pos : Position) :
    ends (mapped s pos :: ps) = ends ps := rfl

@[simp] theorem ends_name (id : Identifier) : ends (name id :: ps) = ends ps := rfl

@[simp] theorem ends_space : ends (space :: ps) = ends ps := rfl

@[simp] theorem ends_newline : ends (newline :: ps) = ends ps := rfl

@[simp] theorem ends_indent : ends (indent :: ps) = ends ps := rfl

@[simp] theorem ends_dedent : ends (dedent :: ps) = ends ps := rfl

@[simp] theorem ends_comma (isLast : Bool) : ends (comma isLast) = 0 := by
  cases isLast <;> rfl

@[simp] theorem ends_inParens : ends (inParens ps) = ends ps := by
  simp [inParens]

@[simp] theorem ends_inBraces : ends (inBraces ps) = ends ps := by
  unfold inBraces
  split
  · next h => rw [List.isEmpty_iff.mp h]; rfl
  · simp

end

@[simp] theorem ends_parameters (xs : List Identifier) : ends (parameters xs) = 0 := by
  induction xs with
  | nil => rfl
  | cons x rest ih => simp [parameters, ih]

end Piece

namespace Statement

@[simp] theorem ends_bodyPieces (s : Statement) (ps : List Piece) :
    ends (s.bodyPieces ps) = ends ps := by
  unfold bodyPieces
  split <;> simp

@[simp] theorem ends_afterBody (s : Statement) (ps : List Piece) :
    ends (s.afterBody :: ps) = ends ps := by
  unfold afterBody
  split <;> rfl

/-- How many statements end in a semicolon in a statement. -/
def ends (s : Statement) : Nat :=
  Piece.ends (s.pieces true)

/-- Whether a statement is the last one of a list does not matter. -/
@[simp] theorem ends_pieces (s : Statement) (last : Bool) :
    Piece.ends (s.pieces last) = s.ends := by
  obtain ⟨final, hfinal, ps, ls, -, h⟩ := s.finishes
  simp only at h
  rw [ends, h, h]
  cases hfinal <;> simp

/-- Whether a statement is of a kind that ends in a semicolon. -/
def isTerminated : Statement → Bool
  | .declarations .. | .expression _ | .doWhile .. | .jump .. | .returnValue .. | .throwValue ..
  | .debugger _ => true
  | _ => false

end Statement

namespace TreeNode

/-- Whether a node is a statement that ends in a semicolon. -/
def isTerminated : TreeNode → Bool
  | .statement s => s.isTerminated
  | .expression _ | .function _ | .handler _ => false

/-- How many statements end in a semicolon in a node. -/
def ends : TreeNode → Nat
  | .expression x => Piece.ends x.pieces
  | .statement s => s.ends
  | .function f => Piece.ends f.pieces
  | .handler h => Piece.ends h.pieces

/-- How many statements end in a semicolon in some nodes. -/
def endsOf : List TreeNode → Nat
  | [] => 0
  | n :: ns => n.ends + endsOf ns

@[simp] theorem endsOf_nil : endsOf [] = 0 := rfl

@[simp] theorem endsOf_cons (n : TreeNode) (ns : List TreeNode) :
    endsOf (n :: ns) = n.ends + endsOf ns := rfl

@[simp] theorem endsOf_append (ns ms : List TreeNode) :
    endsOf (ns ++ ms) = endsOf ns + endsOf ms := by
  induction ns with
  | nil => rw [List.nil_append, endsOf_nil, Nat.zero_add]
  | cons n ns ih => rw [List.cons_append, endsOf_cons, ih, endsOf_cons, Nat.add_assoc]

end TreeNode

attribute [local simp]
  Expression.pieces Element.pieces Property.pieces Function.pieces Declarator.pieces ForInit.pieces
  SwitchClause.pieces CatchClause.pieces Statement.pieces expressionsPieces elementsPieces
  propertiesPieces declaratorsPieces clausesPieces statementsPieces
  TreeNode.ends TreeNode.children Expression.children Statement.children

namespace Piece

theorem ends_expressions (xs : List Expression) :
    ends (expressionsPieces xs) = TreeNode.endsOf (xs.map .expression) := by
  induction xs with
  | nil => rfl
  | cons x rest ih => simp [ih]

theorem ends_elements (xs : List Element) :
    ends (elementsPieces xs) = TreeNode.endsOf (xs.flatMap Element.children) := by
  induction xs with
  | nil => rfl
  | cons x rest ih =>
    cases x with
    | hole => cases rest <;> simp_all [Element.children]
    | value value => simp [ih, Element.children]

theorem ends_properties (xs : List Property) :
    ends (propertiesPieces xs) = TreeNode.endsOf (xs.flatMap Property.children) := by
  induction xs with
  | nil => rfl
  | cons p rest ih =>
    cases p with
    | init => cases hempty : rest.isEmpty <;> simp [hempty, ih, Property.children]
    | accessor _ _ f =>
      obtain ⟨_, id, _, _⟩ := f
      cases id <;> cases hempty : rest.isEmpty <;> simp [hempty, ih, Property.children]

theorem ends_declarators (xs : List Declarator) :
    ends (declaratorsPieces xs) = TreeNode.endsOf (xs.flatMap Declarator.children) := by
  induction xs with
  | nil => rfl
  | cons d rest ih => cases d <;> simp [ih, Declarator.children]

theorem ends_statements (last : Bool) (xs : List Statement) :
    ends (statementsPieces last xs) = TreeNode.endsOf (xs.map .statement) := by
  induction xs with
  | nil => rfl
  | cons s rest ih => simp [ih]

theorem ends_clauses (xs : List SwitchClause) :
    ends (clausesPieces xs) = TreeNode.endsOf (xs.flatMap SwitchClause.children) := by
  induction xs with
  | nil => rfl
  | cons clause rest ih =>
    obtain ⟨test, body⟩ := clause
    cases test <;>
      simp [ih, ends_statements, SwitchClause.children]

theorem ends_forInit (init : ForInit) : ends init.pieces = TreeNode.endsOf init.children := by
  cases init with
  | declarations _ declarators => simpa [ForInit.children] using ends_declarators declarators
  | expression x => simp [ForInit.children]

end Piece

namespace TreeNode

attribute [local simp] ends_expressions ends_elements ends_properties ends_declarators
  ends_statements ends_clauses ends_forInit isTerminated Statement.isTerminated

/-- A node has the semicolons of its children, and one of its own if it is a statement of a kind
that ends in one. -/
theorem ends_eq (n : TreeNode) : n.ends = endsOf n.children + if n.isTerminated then 1 else 0 := by
  cases n with
  | expression x =>
    cases x with
    | object _ properties =>
      have hproperties := ends_properties properties
      cases properties <;> simp_all
    | unary op _ _ => cases hword : op.isWord <;> simp [hword]
    | _ => simp
  | statement s =>
    rw [ends, Statement.ends]
    cases s with
    | ifElse _ _ _ alternate =>
      cases alternate with
      | none => simp
      | some alternate => cases hif : alternate.isIf <;> simp [hif]
    | forLoop _ init test update _ =>
      rw [Statement.pieces_forLoop]
      cases init <;> cases test <;> cases update <;> simp [piecesOfPart, Nat.add_assoc]
    | jump _ _ label => cases label <;> simp
    | returnValue _ argument => cases argument <;> simp
    | tryCatch _ _ handler finalizer =>
      rw [Statement.pieces_tryCatch]
      cases handler <;> cases finalizer <;> simp [piecesOfPart, lastPartPieces]
    | switch _ _ clauses =>
      have hclauses := ends_clauses clauses
      cases clauses <;> simp_all
    | whileDo => simp [Nat.add_comm]
    | _ => simp [Nat.add_assoc]
  | function f =>
    obtain ⟨_, id, _, body⟩ := f
    cases id <;> simp
  | handler h =>
    obtain ⟨_, body⟩ := h
    simp

theorem endsOf_nodes {ns : List TreeNode} (h : ∀ n ∈ ns, n.ends = n.nodes.countP isTerminated) :
    endsOf ns = (ns.flatMap nodes).countP isTerminated := by
  induction ns with
  | nil => rfl
  | cons n ns ih =>
    obtain ⟨hn, hns⟩ := List.forall_mem_cons.mp h
    rw [endsOf_cons, hn, ih hns, List.flatMap_cons, List.countP_append]

/-- In a node there are as many semicolons that end statements as there are such statements. -/
theorem ends_nodes (n : TreeNode) : n.ends = n.nodes.countP isTerminated := by
  induction n using TreeNode.induction with
  | h n ih => rw [ends_eq, endsOf_nodes ih, nodes, inside_eq, List.countP_cons]

end TreeNode

/-- In a program there are as many semicolons that end statements as there are such statements. -/
theorem Program.ends_pieces (program : Program) :
    Piece.ends program.pieces = program.nodes.countP TreeNode.isTerminated := by
  have hbody (body : List Statement) :
      Piece.ends (Program.pieces.go body) = TreeNode.endsOf (body.map .statement) := by
    induction body with
    | nil => rfl
    | cons s rest ih => simp [Program.pieces.go, ih]
  rw [Program.pieces, hbody, TreeNode.endsOf_nodes fun n _ => n.ends_nodes, Program.nodes,
    statementsNodes_eq]

/-! ### Marked tokens -/

namespace Piece

/-- What a piece writes where all semicolons are written, and whether it is a semicolon that ends a
statement. -/
def marked (w : Wording) : Piece → Option (String × Bool)
  | .token text _ _ => some (text, false)
  | .name id => some (w.name id, false)
  | .terminator _ => some (";", true)
  | .space | .newline | .indent | .dedent => none

/-- The marked tokens of pieces. -/
def allMarked (w : Wording) (ps : List Piece) : List (String × Bool) :=
  ps.filterMap (marked w)

end Piece

/-- Marked tokens without the semicolons that end a statement and stand before a closing brace or at
the end. -/
def dropClosing : List (String × Bool) → List String
  | [] => []
  | (text, ends) :: rest =>
    if ends && rest.head?.all (·.1 == "\x7d") then dropClosing rest else text :: dropClosing rest

namespace Piece

variable {w : Wording} {ps : List Piece}

theorem allMarked_append (w : Wording) (ps qs : List Piece) :
    allMarked w (ps ++ qs) = allMarked w ps ++ allMarked w qs :=
  List.filterMap_append

@[simp] theorem allMarked_terminator (last : Bool) :
    allMarked w (terminator last :: ps) = (";", true) :: allMarked w ps := rfl

@[simp] theorem allMarked_token (s : String) (origin : Option Position) (shape : Shape) :
    allMarked w (token s origin shape :: ps) = (s, false) :: allMarked w ps := rfl

@[simp] theorem allMarked_name (id : Identifier) :
    allMarked w (name id :: ps) = (w.name id, false) :: allMarked w ps := rfl

theorem map_allMarked (hkeep : w.drop = false) : (allMarked w ps).map Prod.fst = texts w ps := by
  rw [allMarked, List.map_filterMap, texts]
  refine congrArg (List.filterMap · ps) (funext fun p => ?_)
  cases p <;> simp [marked, text, hkeep]

theorem countP_allMarked (w : Wording) (ps : List Piece) :
    (allMarked w ps).countP Prod.snd = ends ps := by
  rw [allMarked, List.countP_filterMap, ends]
  refine List.countP_congr fun p _ => ?_
  cases p <;> simp [marked, isTerminator]

/-- A closing brace is the next token, or there is none. -/
theorem meetsBrace_eq (hnames : ∀ id, name id ∈ ps → w.name id ≠ "\x7d") :
    (allMarked w ps).head?.all (·.1 == "\x7d") = meetsBrace true ps := by
  induction ps with
  | nil => rfl
  | cons p ps ih =>
    have hrest := ih fun id hid => hnames id (List.mem_cons_of_mem _ hid)
    cases p with
    | token text => rfl
    | name id => simpa [allMarked, marked, meetsBrace] using hnames id (List.mem_cons_self ..)
    | terminator => rfl
    | _ => exact hrest

/-- Where each semicolon knows its place, those that are dropped are those that stand before a
closing brace or at the end. -/
theorem dropClosing_allMarked (hnames : ∀ id, name id ∈ ps → w.name id ≠ "\x7d")
    (hflagged : isFlagged true ps = true) (hdrop : w.drop = true) :
    dropClosing (allMarked w ps) = texts w ps := by
  induction ps with
  | nil => rfl
  | cons p ps ih =>
    have hnames' : ∀ id, name id ∈ ps → w.name id ≠ "\x7d" :=
      fun id hid => hnames id (List.mem_cons_of_mem _ hid)
    have hflagged' : isFlagged true ps = true := by
      cases p <;> simp_all [isFlagged]
    have hrest := ih hnames' hflagged'
    cases p with
    | terminator last =>
      have hlast : last = (allMarked w ps).head?.all (·.1 == "\x7d") := by
        rw [meetsBrace_eq hnames']
        simpa [isFlagged, hflagged'] using hflagged
      rw [allMarked_terminator, dropClosing, ← hlast, hrest]
      cases last with
      | true => simp [texts, text, hdrop]
      | false => simp [texts, text]
    | token | name => simp [dropClosing, hrest, texts, text]
    | _ => exact hrest

end Piece

/-! ### Programs -/

namespace Program

/-- The tokens of a program in the wording of some rules with all semicolons, each with the mark
that tells whether it is a semicolon that ends a statement. -/
def marked (program : Program) (rules : List Rule) : List (String × Bool) :=
  allMarked (program.wording rules) program.pieces

/-- By the rules of the second list a program is printed as by those of the first, but for
semicolons: by the first rules all are written. The others leave out each one that ends a statement
and stands before a closing brace or at the end, and nothing else. An end is open just if the last
one is left out. -/
structure DropsClosing (program : Program) (keeping dropping : List Rule) : Prop where
  kept : program.written keeping = (program.marked keeping).map Prod.fst
  dropped : program.written dropping = dropClosing (program.marked keeping)
  semicolons : ∀ t ∈ program.marked keeping, t.2 = true → t.1 = ";"
  statements : (program.marked keeping).countP Prod.snd = program.nodes.countP TreeNode.isTerminated
  keptText : Woven (.ofRules keeping) (program.print keeping).text.toList (program.written keeping)
  droppedText :
    Woven (.ofRules dropping) (program.print dropping).text.toList (program.written dropping)
  closed : (program.print keeping).openEnd = false
  openEnd : (program.print dropping).openEnd = (program.marked keeping).getLast?.any Prod.snd

variable {source : String} {name : Option String} {program : Program} {rules : List Rule}

/-- What is printed is made of the tokens that are written. -/
theorem woven_print (h : parse source name = .ok program) (rules : List Rule) :
    Woven (.ofRules rules) (program.print rules).text.toList (program.written rules) := by
  have hlegible : Legible ⟨Identifier.name, (Style.ofRules rules).dropSemicolons⟩ program.pieces :=
    (legible_of_parse h fun _ => rfl).1
  rw [print, Page.text_printed]
  exact Page.woven_lexical {} (Lexical.ofStyle hlegible)

/-- No name is printed as a closing brace. -/
theorem name_ne_brace (h : parse source name = .ok program) (rules : List Rule) {id : Identifier}
    (hid : .name id ∈ program.pieces) : (program.wording rules).name id ≠ "\x7d" := by
  have hlegible : Legible ⟨Identifier.name, (Style.ofRules rules).dropSemicolons⟩ program.pieces :=
    (legible_of_parse h fun _ => rfl).1
  have hlexical : Lexical (program.wording rules) program.pieces := Lexical.ofStyle hlegible
  obtain ⟨t, hread, htext, -, hname⟩ := hlexical _ hid _ rfl
  have hkind := hname id rfl
  have hspelled := (hread.spelled (by rw [hkind]; decide)).kindOf
  intro heq
  rw [htext, heq, hkind] at hspelled
  exact absurd hspelled (by decide)

/-- An end is open if the last token would be a semicolon that ends a statement, and is dropped. -/
theorem openEnd_print (program : Program) (rules : List Rule) :
    (program.print rules).openEnd =
      ((program.marked rules).getLast?.any Prod.snd && (Style.ofRules rules).dropSemicolons) := by
  by_cases hbody : program.body = []
  · have hpieces : program.pieces = [] := by rw [Program.pieces_eq, hbody]; rfl
    rw [print, marked, hpieces]
    rfl
  obtain ⟨final, ps, ls, hfinal, hls, hpieces, -, hopen⟩ := exists_final hbody rules
  have hlayout : allMarked (program.wording rules) ls = [] := by
    rw [allMarked, List.filterMap_eq_nil_iff]
    intro p hp
    have hlayout := List.all_eq_true.mp hls p hp
    cases p <;> first | rfl | cases hlayout
  rw [hopen, marked, hpieces, allMarked_append]
  cases hfinal with
  | terminator =>
    rw [allMarked_terminator, hlayout, List.getLast?_append]
    cases hdrop : (Style.ofRules rules).dropSemicolons <;>
      simp [Piece.text, wording, Wording.ofStyle, hdrop]
  | sign =>
    rw [sign, allMarked_token, hlayout, List.getLast?_append]
    rfl

/-- A printer drops the semicolons that end a statement before a closing brace or at the end, in
every layout and with new names or without. -/
theorem print_dropsClosing (h : parse source name = .ok program) {keeping dropping : List Rule}
    (hkeep : (Style.ofRules keeping).dropSemicolons = false)
    (hdrop : Style.ofRules dropping = { Style.ofRules keeping with dropSemicolons := true }) :
    program.DropsClosing keeping dropping := by
  obtain ⟨c, c', -, hprogram⟩ := parse_eq_ok.mp h
  have hflagged : isFlagged true program.pieces = true := Program.flagged _ _ _ hprogram
  have hwording : program.wording dropping = { program.wording keeping with drop := true } := by
    rw [wording, wording, hdrop]
    rfl
  have hmarked : program.marked keeping = program.marked dropping := by
    rw [marked, marked, hwording]
    rfl
  refine ⟨?_, ?_, ?_, ?_, woven_print h keeping, woven_print h dropping, ?_, ?_⟩
  · exact (map_allMarked hkeep).symm
  · rw [hmarked]
    refine (dropClosing_allMarked (fun id hid => name_ne_brace h dropping hid) hflagged ?_).symm
    rw [hwording]
  · intro t ht hends
    obtain ⟨p, hp, hmark⟩ := List.mem_filterMap.mp ht
    cases p <;> cases hmark <;> first | rfl | cases hends
  · exact (countP_allMarked _ _).trans program.ends_pieces
  · rw [openEnd_print, hkeep, Bool.and_false]
  · rw [openEnd_print, hdrop, Bool.and_true, hmarked]

/-- The semicolon before `else`, those of `for` and the empty statement stay, and so does that in
the middle of the block. -/
theorem print_dropsClosing_nested : ∃ program,
    parse "for(;;)\x7bif(a)b;else do;while(c);switch(d)\x7bcase 1:break;case 2:return\x7d\x7dx" none =
      .ok program ∧
    (program.print [.minify false]).text =
      "for(;;)\x7bif(a)b;else do;while(c);switch(d)\x7bcase 1:break;case 2:return;\x7d\x7dx;" ∧
    (program.print [.minify true]).text =
      "for(;;)\x7bif(a)b;else do;while(c);switch(d)\x7bcase 1:break;case 2:return\x7d\x7dx" ∧
    program.DropsClosing [.minify false] [.minify true] := by
  have hparse : ((parse "for(;;)\x7bif(a)b;else do;while(c);switch(d)\x7bcase 1:break;case 2:return\x7d\x7dx"
      none).toOption.any fun program =>
        (program.print [.minify false]).text ==
          "for(;;)\x7bif(a)b;else do;while(c);switch(d)\x7bcase 1:break;case 2:return;\x7d\x7dx;" &&
        (program.print [.minify true]).text ==
          "for(;;)\x7bif(a)b;else do;while(c);switch(d)\x7bcase 1:break;case 2:return\x7d\x7dx") = true := by
    decide +kernel
  obtain ⟨program, h, hrest⟩ := exists_ok_of_any hparse
  obtain ⟨hkept, hdropped⟩ := Bool.and_eq_true_iff.mp hrest
  exact ⟨program, h, beq_iff_eq.mp hkept, beq_iff_eq.mp hdropped, print_dropsClosing h rfl rfl⟩

end Program
end EcmaPress
