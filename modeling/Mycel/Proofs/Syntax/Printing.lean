import Mycel.Proofs.Syntax.Recognition
import Mycel.Proofs.Token.Layout
import Mycel.Proofs.Token.Literals
import Mycel.Syntax.Printer

/-!
# Printed trees

Only some trees are what a parser makes of their text, since only binary operations are printed
with parentheses. `Node.Printed` says which ones. The text of such a tree has the lexemes of the
tree (`Node.Printed.prints`), and the parser makes the same tree of them, except for positions
(`Node.Printed.rereads`).
-/

namespace Mycel

namespace Node

/-! ## Trees that can be printed -/

mutual

/-- The tree without its positions. -/
@[simp]
def bare : Node → Node
  | number _ x => number .none x
  | string _ s => string .none s
  | bool _ b => bool .none b
  | identifier _ x => identifier .none x
  | assign _ target value => assign .none target.bare value.bare
  | binary _ o left right => binary .none o left.bare right.bare
  | branch _ condition whenTrue whenFalse =>
    branch .none condition.bare whenTrue.bare whenFalse.bare
  | lambda _ name params body => lambda .none name params body.bare
  | program _ body => program .none (bareAll body)
  | call _ callee args => call .none callee.bare (bareAll args)
  | binding _ bindings body => binding .none (bareBindings bindings) body.bare
  | missing => missing

def bareAll : List Node → List Node
  | [] => []
  | node :: rest => node.bare :: bareAll rest

def bareBindings : List (Text × Node) → List (Text × Node)
  | [] => []
  | (name, definition) :: rest => (name, definition.bare) :: bareBindings rest

end

/-- The tree ends in a conditional without a second branch, so that one could still follow. -/
def endsOpen : Node → Bool
  | branch _ _ _ whenFalse => !whenFalse.isPresent || whenFalse.endsOpen
  | lambda _ _ _ body => body.endsOpen
  | binding _ _ body => body.endsOpen
  | assign _ _ value => value.endsOpen
  | _ => false

/-- Where a tree can stand: as an operand that ends by itself, as a right operand, or anywhere. -/
inductive Level where
  | closed
  | operand
  | whole

/-- The operators that are printed as they are written. -/
def printedOperators : List Operator :=
  [.less, .greater, .lessEqual, .greaterEqual, .equal, .notEqual, .add, .sub, .mul, .div, .rem]

/-- The trees that their texts denote. -/
inductive Printed : Level → Node → Prop
  | number {pos : Pos} {x : Float}
      (hform : ∀ b ∈ Number.text x, Decimal.isDigit b = true ∨ b = pointSign)
      (hpoint : (Number.text x).count pointSign ≤ 1)
      (hvalue : Decimal.ofLiteral? (Number.text x) = some x) : Printed .closed (.number pos x)
  | string {pos : Pos} {s : Text} (h : ∀ b ∈ s, 0x20 ≤ b ∧ b ≤ 0x7e) :
      Printed .closed (.string pos s)
  | bool {pos : Pos} {b : Bool} : Printed .closed (.bool pos b)
  | identifier {pos : Pos} {x : Text} (h : x.IsName) : Printed .closed (.identifier pos x)
  | binary {pos : Pos} {o : Operator} {left right : Node} (ho : o ∈ printedOperators)
      (hleft : Printed .closed left) (hright : Printed .operand right) :
      Printed .closed (.binary pos o left right)
  | call {pos : Pos} {callee : Node} {args : List Node} (hcallee : Printed .closed callee)
      (hargs : ∀ e ∈ args, Printed .whole e) : Printed .closed (.call pos callee args)
  | program {pos : Pos} {body : List Node} (hlength : 2 ≤ body.length)
      (hbody : ∀ e ∈ body, Printed .whole e) : Printed .closed (.program pos body)
  | closed {e : Node} (h : Printed .closed e) : Printed .operand e
  | lambda {pos : Pos} {name : Option Text} {params : List Text} {body : Node}
      (hname : ∀ x ∈ name, x.IsName) (hparams : ∀ x ∈ params, x.IsName)
      (hbody : Printed .whole body) : Printed .operand (.lambda pos name params body)
  | binding {pos : Pos} {bindings : List (Text × Node)} {body : Node}
      (hnames : ∀ b ∈ bindings, b.1.IsName)
      (hdefinitions : ∀ b ∈ bindings, b.2 ≠ .missing → Printed .whole b.2)
      (hbody : Printed .whole body) : Printed .operand (.binding pos bindings body)
  | withoutElse {pos : Pos} {condition whenTrue : Node} (hcondition : Printed .whole condition)
      (htrue : Printed .whole whenTrue) :
      Printed .operand (.branch pos condition whenTrue .missing)
  | withElse {pos : Pos} {condition whenTrue whenFalse : Node}
      (hcondition : Printed .whole condition) (htrue : Printed .whole whenTrue)
      (hopen : whenTrue.endsOpen = false) (hfalse : Printed .whole whenFalse) :
      Printed .operand (.branch pos condition whenTrue whenFalse)
  | operand {e : Node} (h : Printed .operand e) : Printed .whole e
  | assign {pos : Pos} {target value : Node} (htarget : Printed .closed target)
      (hvalue : Printed .operand value) : Printed .whole (.assign pos target value)

theorem bareAll_eq (nodes : List Node) : bareAll nodes = nodes.map bare := by
  induction nodes with
  | nil => rfl
  | cons node rest ih => exact congrArg (node.bare :: ·) ih

theorem bareBindings_eq (bindings : List (Text × Node)) :
    bareBindings bindings = bindings.map fun b => (b.1, b.2.bare) := by
  induction bindings with
  | nil => rfl
  | cons b rest ih => exact congrArg ((b.1, b.2.bare) :: ·) ih

theorem Printed.isPresent {level : Level} {e : Node} (h : Printed level e) :
    e.isPresent = true := by
  induction h with
  | closed _ ih | operand _ ih => exact ih
  | _ => rfl

/-! ## Their lexemes -/

end Node

/-- Lists of lexemes with a mark between neighbours. -/
def joined (m : Mark) : List (List Lexeme) → List Lexeme
  | [] => []
  | [ls] => ls
  | ls :: rest => ls ++ .mark m :: joined m rest

namespace Node

mutual

@[simp]
def lexemes : Node → List Lexeme
  | number _ x => [.number (Number.text x) x]
  | string _ s => [.string s]
  | bool _ b => [.keyword (if b then .trueWord else .falseWord)]
  | identifier _ x => [.identifier x]
  | assign _ target value => target.lexemes ++ .operator (bytes "=") :: value.lexemes
  | binary _ o left right =>
    .mark .openParen :: (left.lexemes ++ .operator o.spelling ::
      (right.lexemes ++ [.mark .closeParen]))
  | branch _ condition whenTrue whenFalse =>
    .keyword .ifWord :: (condition.lexemes ++ .keyword .thenWord :: (whenTrue.lexemes ++
      if whenFalse.isPresent then .keyword .elseWord :: whenFalse.lexemes else []))
  | lambda _ name params body =>
    .keyword .lambdaWord :: (name.toList.map .identifier ++ .mark .openParen ::
      (joined .comma (params.map fun x => [.identifier x]) ++ .mark .closeParen :: body.lexemes))
  | program _ body =>
    .mark .openBrace :: (joined .semicolon (lexemesAll body) ++ [.mark .closeBrace])
  | call _ callee args =>
    callee.lexemes ++ .mark .openParen :: (joined .comma (lexemesAll args) ++ [.mark .closeParen])
  | binding _ bindings body =>
    .keyword .letWord :: .mark .openParen ::
      (joined .comma (lexemesBindings bindings) ++ .mark .closeParen :: body.lexemes)
  | missing => []

def lexemesAll : List Node → List (List Lexeme)
  | [] => []
  | node :: rest => node.lexemes :: lexemesAll rest

def lexemesBindings : List (Text × Node) → List (List Lexeme)
  | [] => []
  | (name, definition) :: rest =>
    (.identifier name :: if definition.isPresent
      then .operator (bytes "=") :: definition.lexemes else []) :: lexemesBindings rest

end

/-- The lexemes of a binding. -/
def bindingLexemes (b : Text × Node) : List Lexeme :=
  .identifier b.1 :: if b.2.isPresent then .operator (bytes "=") :: b.2.lexemes else []

theorem lexemesAll_eq (nodes : List Node) : lexemesAll nodes = nodes.map lexemes := by
  induction nodes with
  | nil => rfl
  | cons node rest ih => exact congrArg (node.lexemes :: ·) ih

theorem lexemesBindings_eq (bindings : List (Text × Node)) :
    lexemesBindings bindings = bindings.map bindingLexemes := by
  induction bindings with
  | nil => rfl
  | cons b rest ih => exact congrArg (bindingLexemes b :: ·) ih

end Node

/-! ## Texts and lexemes -/

/-- The byte between words that are printed one after another. -/
def space : UInt8 := 32

theorem detached_space (t : Text) : Detached (space :: t) := detached_cons (by decide) t

theorem detached_mark (m : Mark) (t : Text) : Detached (m.byte :: t) :=
  detached_cons (by cases m <;> decide) t

namespace Lexes

variable {t w : Text} {l : Lexeme} {ls : List Lexeme}

theorem space (h : Lexes t ls) : Lexes (space :: t) ls :=
  Lexes.gap (.blank (by decide) .nil) h

theorem mark (m : Mark) (h : Lexes t ls) : Lexes (m.byte :: t) (.mark m :: ls) :=
  .lexeme .nil (.mark m) (fun _ _ => rfl) h

theorem word (hw : l.Written w) (ht : Detached t) (h : Lexes t ls) : Lexes (w ++ t) (l :: ls) :=
  .lexeme .nil hw (ht l) h

theorem wordSpace (hw : l.Written w) (h : Lexes t ls) : Lexes (w ++ Mycel.space :: t) (l :: ls) :=
  word hw (detached_space t) h.space

end Lexes

/-- What is written before any text comes to the lexemes `ls`. -/
def Prints (write : Text → Text) (ls : List Lexeme) : Prop :=
  ∀ t ms, Detached t → Lexes t ms → Lexes (write t) (ls ++ ms)

/-- Texts one after another, with a mark and a space between neighbours. -/
def writeJoined (m : Mark) : List (Text → Text) → Text → Text
  | [], t => t
  | [write], t => write t
  | write :: rest, t => write (m.byte :: space :: writeJoined m rest t)

theorem prints_word {w : Text} {l : Lexeme} (hw : l.Written w) : Prints (w ++ ·) [l] :=
  fun _ _ ht h => .word hw ht h

theorem prints_joined {α : Type} {m : Mark} {write : α → Text → Text} {lexemes : α → List Lexeme}
    {xs : List α} (h : ∀ x ∈ xs, Prints (write x) (lexemes x)) :
    Prints (writeJoined m (xs.map write)) (joined m (xs.map lexemes)) := by
  induction xs with
  | nil => exact fun _ _ _ ht => ht
  | cons x xs ih =>
    obtain ⟨hx, hxs⟩ := List.forall_mem_cons.1 h
    cases xs with
    | nil => exact hx
    | cons y ys =>
      intro t ms hdetached ht
      have hrest := Lexes.mark m (Lexes.space (ih hxs t ms hdetached ht))
      have hlexes := hx _ _ (detached_mark m _) hrest
      simpa [writeJoined, joined] using hlexes

namespace Node

theorem writeAll_eq (m : Mark) (nodes : List Node) (t : Text) :
    writeAll [m.byte, space] nodes t = writeJoined m (nodes.map write) t := by
  induction nodes with
  | nil => rfl
  | cons node rest ih =>
    cases rest with
    | nil => rfl
    | cons next rest =>
      show node.write ([m.byte, space] ++ writeAll _ (next :: rest) t) = _
      rw [ih]
      rfl

/-- The text of a binding, before the text `t`. -/
def writeBinding (b : Text × Node) (t : Text) : Text :=
  b.1 ++ if b.2.isPresent then bytes " = " ++ b.2.write t else t

theorem writeBindings_eq (bindings : List (Text × Node)) (t : Text) :
    writeBindings bindings t = writeJoined .comma (bindings.map writeBinding) t := by
  induction bindings with
  | nil => rfl
  | cons b rest ih =>
    cases rest with
    | nil => rfl
    | cons next rest =>
      show writeBinding b (bytes ", " ++ writeBindings (next :: rest) t) = _
      rw [ih]
      rfl

end Node

theorem join_eq (names : List Text) (t : Text) :
    Text.join (bytes ", ") names ++ t = writeJoined .comma (names.map (· ++ ·)) t := by
  induction names with
  | nil => rfl
  | cons name rest ih =>
    cases rest with
    | nil => rfl
    | cons next rest =>
      rw [Text.join, List.append_assoc, List.append_assoc, ih]
      · rfl
      · simp

theorem written_operator {o : Operator} (h : o ∈ Node.printedOperators) :
    (Lexeme.operator o.spelling).Written o.spelling := by
  have hall : ∀ o ∈ Node.printedOperators,
      o.spelling ≠ [] ∧ o.spelling.all isOperatorByte = true := by decide
  obtain ⟨hne, hbytes⟩ := hall o h
  obtain ⟨b, t, hspelling⟩ := List.exists_cons_of_ne_nil hne
  rw [hspelling] at hbytes ⊢
  exact .operator (List.all_eq_true.1 hbytes)

theorem written_equals : (Lexeme.operator (bytes "=")).Written (bytes "=") :=
  .operator (List.forall_mem_singleton.2 rfl)

namespace Node

/-! ### Texts of trees, word by word -/

variable (pos : Pos) (t : Text)

theorem write_assign (target value : Node) : (assign pos target value).write t =
    target.write (space :: (bytes "=" ++ space :: value.write t)) := rfl

theorem write_binary (o : Operator) (left right : Node) : (binary pos o left right).write t =
    Mark.openParen.byte :: left.write (space :: (o.spelling ++ space ::
      right.write (Mark.closeParen.byte :: t))) := by
  show bytes "(" ++ left.write (bytes " " ++ o.spelling ++ bytes " " ++
    right.write (bytes ")" ++ t)) = _
  rw [List.append_assoc, List.append_assoc]
  rfl

theorem write_withoutElse {whenTrue : Node} (h : whenTrue.isPresent = true) (condition : Node) :
    (branch pos condition whenTrue missing).write t =
      Keyword.ifWord.spelling ++ space :: condition.write (space ::
        (Keyword.thenWord.spelling ++ space :: whenTrue.write t)) := by
  show bytes "if " ++ condition.write
    (if whenTrue.isPresent then bytes " then " ++ whenTrue.write t else t) = _
  rw [if_pos h]
  rfl

theorem write_withElse {whenTrue whenFalse : Node} (htrue : whenTrue.isPresent = true)
    (hfalse : whenFalse.isPresent = true) (condition : Node) :
    (branch pos condition whenTrue whenFalse).write t =
      Keyword.ifWord.spelling ++ space :: condition.write (space ::
        (Keyword.thenWord.spelling ++ space :: whenTrue.write (space ::
          (Keyword.elseWord.spelling ++ space :: whenFalse.write t)))) := by
  show bytes "if " ++ condition.write (if whenTrue.isPresent then bytes " then " ++
    whenTrue.write (if whenFalse.isPresent then bytes " else " ++ whenFalse.write t else t)
    else _) = _
  rw [if_pos htrue, if_pos hfalse]
  rfl

theorem write_lambda (name : Option Text) (params : List Text) (body : Node) :
    (lambda pos name params body).write t =
      Keyword.lambdaWord.spelling ++ space :: (name.elim [] (· ++ [space]) ++
        Mark.openParen.byte :: writeJoined .comma (params.map (· ++ ·))
          (Mark.closeParen.byte :: space :: body.write t)) := by
  rw [← join_eq]
  simp only [write, List.append_assoc]
  cases name <;> rfl

theorem write_program (body : List Node) : (program pos body).write t =
    Mark.openBrace.byte :: space :: writeJoined .semicolon (body.map write)
      (space :: Mark.closeBrace.byte :: t) := by
  rw [← writeAll_eq]
  rfl

theorem write_call (callee : Node) (args : List Node) : (call pos callee args).write t =
    callee.write (Mark.openParen.byte :: writeJoined .comma (args.map write)
      (Mark.closeParen.byte :: t)) := by
  rw [← writeAll_eq]
  rfl

theorem write_binding (bindings : List (Text × Node)) (body : Node) :
    (binding pos bindings body).write t =
      Keyword.letWord.spelling ++ space :: Mark.openParen.byte ::
        writeJoined .comma (bindings.map writeBinding)
          (Mark.closeParen.byte :: space :: body.write t) := by
  rw [← writeBindings_eq]
  rfl

theorem prints_binding {b : Text × Node} (hname : b.1.IsName)
    (h : b.2 ≠ missing → Prints b.2.write b.2.lexemes) :
    Prints (writeBinding b) (bindingLexemes b) := by
  obtain ⟨name, definition⟩ := b
  intro t ms hdetached ht
  by_cases hpresent : definition.isPresent = true
  · have hne : definition ≠ missing := by
      rintro rfl
      cases hpresent
    have hdefinition := h hne t ms hdetached ht
    have hequals := (Lexes.wordSpace written_equals hdefinition).space
    have hlexes := Lexes.word (written_name hname) (detached_space _) hequals
    simp only [writeBinding, bindingLexemes, hpresent, if_true]
    exact hlexes
  · simp only [writeBinding, bindingLexemes, hpresent]
    exact .word (written_name hname) hdetached ht

/-- The text of a tree has the lexemes of the tree. -/
theorem Printed.prints {level : Level} {e : Node} (h : Printed level e) :
    Prints e.write e.lexemes := by
  induction h with
  | number hform hpoint hvalue => exact prints_word (written_number hform hpoint hvalue)
  | string h => exact prints_word (written_string h)
  | @bool pos b =>
    cases b with
    | true => exact prints_word (written_keyword .trueWord)
    | false => exact prints_word (written_keyword .falseWord)
  | identifier h => exact prints_word (written_name h)
  | closed _ ih | operand _ ih => exact ih
  | assign _ _ ihtarget ihvalue =>
    intro t ms hdetached ht
    have hvalue := ihvalue t ms hdetached ht
    have hequals := (Lexes.wordSpace written_equals hvalue).space
    have htarget := ihtarget _ _ (detached_space _) hequals
    rw [write_assign]
    simpa using htarget
  | binary ho _ _ ihleft ihright =>
    intro t ms _ ht
    have hclose := Lexes.mark .closeParen ht
    have hright := ihright _ _ (detached_mark .closeParen t) hclose
    have hoperator := (Lexes.wordSpace (written_operator ho) hright).space
    have hleft := ihleft _ _ (detached_space _) hoperator
    rw [write_binary]
    simpa using Lexes.mark .openParen hleft
  | @call pos callee args _ _ ihcallee ihargs =>
    intro t ms _ ht
    have hclose := Lexes.mark .closeParen ht
    have hargs := prints_joined (m := .comma) ihargs _ _ (detached_mark .closeParen t) hclose
    have hopen := Lexes.mark .openParen hargs
    have hcallee := ihcallee _ _ (detached_mark .openParen _) hopen
    rw [write_call]
    simpa [lexemesAll_eq] using hcallee
  | @program pos body _ _ ihbody =>
    intro t ms _ ht
    have hclose := (Lexes.mark .closeBrace ht).space
    have hbody := prints_joined (m := .semicolon) ihbody _ _ (detached_space _) hclose
    rw [write_program]
    simpa [lexemesAll_eq] using Lexes.mark .openBrace hbody.space
  | @lambda pos name params body hname hparams _ ihbody =>
    intro t ms hdetached ht
    have hbody := Lexes.mark .closeParen (ihbody t ms hdetached ht).space
    have hnames : ∀ x ∈ params, Prints (x ++ ·) [.identifier x] := fun x hx =>
      prints_word (written_name (hparams x hx))
    have hlist := prints_joined (m := .comma) hnames _ _ (detached_mark .closeParen _) hbody
    have hopen := Lexes.mark .openParen hlist
    rw [write_lambda]
    cases name with
    | none => simpa using Lexes.wordSpace (written_keyword .lambdaWord) hopen
    | some x =>
      have hx := Lexes.wordSpace (written_name (hname x rfl)) hopen
      simpa using Lexes.wordSpace (written_keyword .lambdaWord) hx
  | @binding pos bindings body hnames _ _ ihdefinitions ihbody =>
    intro t ms hdetached ht
    have hbody := Lexes.mark .closeParen (ihbody t ms hdetached ht).space
    have hbindings := prints_joined (m := .comma) (fun b hb =>
      prints_binding (hnames b hb) (ihdefinitions b hb)) _ _ (detached_mark .closeParen _) hbody
    have hopen := Lexes.mark .openParen hbindings
    rw [write_binding]
    simpa [lexemesBindings_eq] using Lexes.wordSpace (written_keyword .letWord) hopen
  | withoutElse _ htrue ihcondition ihtrue =>
    intro t ms hdetached ht
    have hbranch := ihtrue t ms hdetached ht
    have hthen := (Lexes.wordSpace (written_keyword .thenWord) hbranch).space
    have hcondition := ihcondition _ _ (detached_space _) hthen
    rw [write_withoutElse _ _ htrue.isPresent]
    simpa [Node.isPresent] using Lexes.wordSpace (written_keyword .ifWord) hcondition
  | withElse _ htrue _ hfalse ihcondition ihtrue ihfalse =>
    intro t ms hdetached ht
    have hbranch := ihfalse t ms hdetached ht
    have helse := (Lexes.wordSpace (written_keyword .elseWord) hbranch).space
    have htrue' := ihtrue _ _ (detached_space _) helse
    have hthen := (Lexes.wordSpace (written_keyword .thenWord) htrue').space
    have hcondition := ihcondition _ _ (detached_space _) hthen
    rw [write_withElse _ _ htrue.isPresent hfalse.isPresent]
    simpa [hfalse.isPresent] using Lexes.wordSpace (written_keyword .ifWord) hcondition

end Node

/-! ## Reading the lexemes back -/

/-- Items with separators between them, each of which ends before a separator or the end of the
list. -/
inductive Listed (i : Item) (b : Enclosure) : List Token → List i.Result → Prop
  | nil : Listed i b [] []
  | last {ts : List Token} {x : i.Result}
      (h : ∀ next, next = .mark b.separator ∨ next = .mark b.stop → Reads (.item i) ts next x) :
      Listed i b ts [x]
  | cons {ts us : List Token} {t : Token} {x : i.Result} {xs : List i.Result}
      (h : ∀ next, next = .mark b.separator ∨ next = .mark b.stop → Reads (.item i) ts next x)
      (ht : t.lexeme = .mark b.separator) (rest : Listed i b us xs) :
      Listed i b (ts ++ t :: us) (x :: xs)

theorem Listed.reads {i : Item} {b : Enclosure} {ts : List Token} {xs : List i.Result}
    (h : Listed i b ts xs) {u : Token} (hu : u.lexeme = .mark b.stop) (next : Lexeme) :
    Reads (.items i b true) (ts ++ [u]) next xs ∧ ∀ t : Token, t.lexeme = .mark b.separator →
      Reads (.items i b false) (t :: (ts ++ [u])) next xs := by
  induction h with
  | nil => exact ⟨.close hu, fun t ht => .trailing ht hu⟩
  | @last ts x h =>
    have hx : Reads (.item i) ts (ahead [u] next) x := h _ (.inr hu)
    exact ⟨.itemFirst hx (.close hu), fun t ht => .itemNext ht hx (.close hu)⟩
  | @cons ts us t x xs h ht _ ih =>
    have hx : Reads (.item i) ts (ahead (t :: (us ++ [u])) next) x := h _ (.inl ht)
    rw [List.append_assoc]
    exact ⟨.itemFirst hx (ih.2 t ht), fun t' ht' => .itemNext ht' hx (ih.2 t ht)⟩

/-- Joined lexemes are read as a list, if the lexemes of each item are read as that item. The
functions `f` and `g` say in what respect the items are to be the same. -/
theorem exists_listed {α γ : Type} {i : Item} {b : Enclosure} {lexemes : α → List Lexeme}
    {f : i.Result → γ} {g : α → γ} {xs : List α}
    (h : ∀ x ∈ xs, ∀ ts : List Token, ts.map (·.lexeme) = lexemes x → ∃ r, f r = g x ∧
      ∀ next, next = .mark b.separator ∨ next = .mark b.stop → Reads (.item i) ts next r)
    {ts : List Token} (hts : ts.map (·.lexeme) = joined b.separator (xs.map lexemes)) :
    ∃ rs, rs.map f = xs.map g ∧ Listed i b ts rs := by
  induction xs generalizing ts with
  | nil =>
    obtain rfl := List.map_eq_nil_iff.1 hts
    exact ⟨[], rfl, .nil⟩
  | cons x xs ih =>
    obtain ⟨hx, hxs⟩ := List.forall_mem_cons.1 h
    cases xs with
    | nil =>
      obtain ⟨r, hr, hreads⟩ := hx ts hts
      exact ⟨[r], by rw [List.map_singleton, hr]; rfl, .last hreads⟩
    | cons y ys =>
      obtain ⟨us, vs, rfl, hus, hvs⟩ := List.map_eq_append_iff.1 hts
      obtain ⟨t, vs, rfl, ht, hvs⟩ := List.map_eq_cons_iff.1 hvs
      obtain ⟨r, hr, hreads⟩ := hx us hus
      obtain ⟨rs, hrs, hlisted⟩ := ih hxs hvs
      exact ⟨r :: rs, by rw [List.map_cons, hr, hrs]; rfl, .cons hreads ht hlisted⟩

namespace Node

/-- The lexeme `next` can come after the text of a tree. -/
def FollowedBy (e : Node) (next : Lexeme) : Prop :=
  Parser.connective? next = none ∧ next ≠ .mark .openParen ∧
    (next = .keyword .elseWord → e.endsOpen = false)

/-- The parser makes a node of the tokens, where a tree of the given level can stand. -/
def ReadAs (e : Node) (ts : List Token) (r : Node) : Level → Prop
  | .closed => ∀ us next a, Reads (.calls r) us next a → Reads .operand (ts ++ us) next a
  | .operand => ∀ next, e.FollowedBy next → Reads .operand ts next r
  | .whole => ∀ next, e.FollowedBy next → Reads (.item .expression) ts next r

theorem followedBy_of_final {next : Lexeme} (h : next.Final) (e : Node) : e.FollowedBy next :=
  ⟨h.1, h.2.1, fun helse => absurd helse h.2.2⟩

theorem followedBy_bound {b : Enclosure} {next : Lexeme}
    (h : next = .mark b.separator ∨ next = .mark b.stop) (e : Node) : e.FollowedBy next := by
  rcases h with rfl | rfl
  · cases b <;> simp [FollowedBy, Enclosure.separator, Parser.connective?]
  · cases b <;> simp [FollowedBy, Enclosure.stop, Parser.connective?]

section

variable {e r : Node} {t : Token} {ts us : List Token} {next : Lexeme}

theorem ReadAs.operand (h : e.ReadAs ts r .closed) (hnext : next ≠ .mark .openParen) :
    Reads .operand ts next r := by
  simpa using h [] next r (.callsEnd hnext)

/-- Two operands with a connective between them, before something that is no connective. -/
theorem reads_pair {c : Connective} {left right : Node}
    (hc : Parser.connective? t.lexeme = some c) (hleft : Reads .operand ts t.lexeme left)
    (hright : Reads .operand us next right) (hnext : Parser.connective? next = none) :
    Reads (.item .expression) (ts ++ t :: us) next (Parser.combine c left right) := by
  have hend : ∀ (a : Node) (level : Nat), Reads (.chain a level) [] next a := fun a level =>
    .chainEnd fun c hc => nomatch hnext.symm.trans hc
  have hrest := Reads.chainMore hc (precedence_pos hc) hright (hend right c.precedence)
    (hend (Parser.combine c left right) 0)
  rw [List.append_nil, List.append_nil] at hrest
  exact .expression hleft hrest

theorem connective_operator {o : Operator} (h : o ∈ printedOperators) :
    Parser.connective? (.operator o.spelling) = some (.operator o) := by
  have hall : ∀ o ∈ printedOperators,
      Parser.connective? (.operator o.spelling) = some (.operator o) := by decide
  exact hall o h

end

section

variable {ts : List Token}

/-- What is to be shown of each tree: the parser makes the same tree of its lexemes, except for
positions. -/
def Rereads (e : Node) (level : Level) : Prop :=
  ∀ ts : List Token, ts.map (·.lexeme) = e.lexemes → ∃ r, r.bare = e.bare ∧ e.ReadAs ts r level

theorem rereads_leaf {e : Node} {l : Lexeme} (he : e.lexemes = [l])
    (hleaf : ∀ t : Token, t.lexeme = l → ∃ r, leaf? t = some r ∧ r.bare = e.bare) :
    e.Rereads .closed := by
  intro ts hts
  obtain ⟨t, rfl, ht⟩ := List.map_eq_singleton_iff.1 (hts.trans he)
  obtain ⟨r, hr, hbare⟩ := hleaf t ht
  exact ⟨r, hbare, fun _ _ _ hcalls => .operand (.leaf hr) hcalls⟩

theorem rereads_binary {pos : Pos} {o : Operator} {left right : Node} (ho : o ∈ printedOperators)
    (hleft : left.Rereads .closed) (hright : right.Rereads .operand) :
    (binary pos o left right).Rereads .closed := by
  intro ts hts
  obtain ⟨t, ts, rfl, ht, hts⟩ := List.map_eq_cons_iff.1 hts
  obtain ⟨us, ts, rfl, hus, hts⟩ := List.map_eq_append_iff.1 hts
  obtain ⟨u, ts, rfl, hu, hts⟩ := List.map_eq_cons_iff.1 hts
  obtain ⟨vs, ws, rfl, hvs, hws⟩ := List.map_eq_append_iff.1 hts
  obtain ⟨v, rfl, hv⟩ := List.map_eq_singleton_iff.1 hws
  obtain ⟨l, hl, hl'⟩ := hleft us hus
  obtain ⟨r, hr, hr'⟩ := hright vs hvs
  have hc : Parser.connective? u.lexeme = some (.operator o) := by
    rw [hu]
    exact connective_operator ho
  have hfollows := followedBy_bound (b := .parens) (.inr rfl) right
  have hinside := reads_pair hc (hl'.operand (by simp [hu])) (hr' _ hfollows) hfollows.1
  refine ⟨.binary l.pos o l r, by simp [hl, hr], fun ws next a hcalls => ?_⟩
  simpa [Parser.combine] using Reads.operand (.paren ht hv hinside) hcalls

theorem rereads_expressions {b : Enclosure} {nodes : List Node}
    (h : ∀ e ∈ nodes, e.Rereads .whole)
    (hts : ts.map (·.lexeme) = joined b.separator (lexemesAll nodes)) :
    ∃ es : List Node, es.map bare = nodes.map bare ∧ Listed .expression b ts es := by
  rw [lexemesAll_eq] at hts
  refine exists_listed (i := .expression) (f := bare) (g := bare) (fun e he us hus => ?_) hts
  obtain ⟨r, hr, hreads⟩ := h e he us hus
  exact ⟨r, hr, fun next hnext => hreads next (followedBy_bound hnext e)⟩

theorem rereads_names {names : List Text}
    (hts : ts.map (·.lexeme) = joined .comma (names.map fun x => [.identifier x])) :
    Listed .name .parens ts names := by
  have hname : ∀ x ∈ names, ∀ us : List Token, us.map (·.lexeme) = [.identifier x] →
      ∃ y : Text, y = x ∧ ∀ next, next = .mark .comma ∨ next = .mark .closeParen →
        Reads (.item .name) us next y := by
    intro x _ us hus
    obtain ⟨⟨l, p⟩, rfl, rfl⟩ := List.map_eq_singleton_iff.1 hus
    exact ⟨x, rfl, fun _ _ => .name⟩
  obtain ⟨xs, hxs, hlisted⟩ :=
    exists_listed (i := .name) (b := .parens) (f := id) (g := id) hname hts
  have hnames : xs = names := (List.map_id xs).symm.trans (hxs.trans (List.map_id names))
  exact hnames ▸ hlisted

theorem rereads_call {pos : Pos} {callee : Node} {args : List Node}
    (hcallee : callee.Rereads .closed) (hargs : ∀ e ∈ args, e.Rereads .whole) :
    (call pos callee args).Rereads .closed := by
  intro ts hts
  obtain ⟨us, ts, rfl, hus, hts⟩ := List.map_eq_append_iff.1 hts
  obtain ⟨t, ts, rfl, ht, hts⟩ := List.map_eq_cons_iff.1 hts
  obtain ⟨vs, ws, rfl, hvs, hws⟩ := List.map_eq_append_iff.1 hts
  obtain ⟨v, rfl, hv⟩ := List.map_eq_singleton_iff.1 hws
  obtain ⟨c, hc, hc'⟩ := hcallee us hus
  obtain ⟨es, hes, hlisted⟩ := rereads_expressions (b := .parens) hargs hvs
  refine ⟨.call c.pos c es, by simp [bareAll_eq, hc, hes], fun ws next a hcalls => ?_⟩
  have hcall := hc' _ _ _ (.callsMore ht (hlisted.reads hv _).1 hcalls)
  simpa using hcall

theorem rereads_program {pos : Pos} {body : List Node} (hlength : 2 ≤ body.length)
    (hbody : ∀ e ∈ body, e.Rereads .whole) : (program pos body).Rereads .closed := by
  intro ts hts
  obtain ⟨t, ts, rfl, ht, hts⟩ := List.map_eq_cons_iff.1 hts
  obtain ⟨us, vs, rfl, hus, hvs⟩ := List.map_eq_append_iff.1 hts
  obtain ⟨v, rfl, hv⟩ := List.map_eq_singleton_iff.1 hvs
  obtain ⟨es, hes, hlisted⟩ := rereads_expressions (b := .braces) hbody hus
  have hblock : Parser.block t.pos es = .program t.pos es := by
    have hlen : es.length = body.length := by simpa using congrArg List.length hes
    match es, hlen with
    | [], hlen | [_], hlen => simp at hlen; omega
    | _ :: _ :: _, _ => rfl
  refine ⟨.program t.pos es, by simp [bareAll_eq, hes], fun ws next a hcalls => ?_⟩
  have hoperand := Reads.operand (.block ht (hlisted.reads hv _).1) (hblock ▸ hcalls)
  simpa using hoperand

/-- What is read without parentheses around it ends where its last part ends. -/
theorem rereads_lambda {pos : Pos} {name : Option Text} {params : List Text} {body : Node}
    (hbody : body.Rereads .whole) : (lambda pos name params body).Rereads .operand := by
  intro ts hts
  obtain ⟨t, ts, rfl, ht, hts⟩ := List.map_eq_cons_iff.1 hts
  obtain ⟨names, ts, rfl, hnames, hts⟩ := List.map_eq_append_iff.1 hts
  obtain ⟨u, ts, rfl, hu, hts⟩ := List.map_eq_cons_iff.1 hts
  obtain ⟨us, ts, rfl, hus, hts⟩ := List.map_eq_append_iff.1 hts
  obtain ⟨v, ts, rfl, hv, hts⟩ := List.map_eq_cons_iff.1 hts
  obtain ⟨r, hr, hr'⟩ := hbody ts hts
  have hname : ReadsName names name := by
    cases name with
    | none =>
      obtain rfl := List.map_eq_nil_iff.1 hnames
      exact .none
    | some x =>
      obtain ⟨⟨l, p⟩, rfl, rfl⟩ := List.map_eq_singleton_iff.1 hnames
      exact .some x p
  refine ⟨.lambda t.pos name params r, by simp [hr], fun next hnext => ?_⟩
  have hparams := (rereads_names hus).reads hv
  have hprimary := Reads.lambdaWord ht hname hu (hparams _).1 (hr' next hnext)
  simpa using Reads.operand hprimary (.callsEnd hnext.2.1)

theorem rereads_definition {b : Text × Node} (h : b.2 ≠ missing → b.2.Rereads .whole)
    (hts : ts.map (·.lexeme) = bindingLexemes b) :
    ∃ r : Text × Node, (r.1, r.2.bare) = (b.1, b.2.bare) ∧
      ∀ next, next = .mark .comma ∨ next = .mark .closeParen →
        Reads (.item .definition) ts next r := by
  obtain ⟨x, d⟩ := b
  obtain ⟨⟨l, p⟩, us, rfl, rfl, hus⟩ := List.map_eq_cons_iff.1 hts
  by_cases hd : d = missing
  · subst hd
    obtain rfl := List.map_eq_nil_iff.1 hus
    refine ⟨(x, missing), rfl, fun next hnext => .undefined ?_⟩
    rintro rfl
    simp at hnext
  · have hpresent : d.isPresent = true := by
      cases d with
      | missing => exact absurd rfl hd
      | _ => rfl
    rw [if_pos hpresent] at hus
    obtain ⟨t, vs, rfl, ht, hvs⟩ := List.map_eq_cons_iff.1 hus
    obtain ⟨r, hr, hr'⟩ := h hd vs hvs
    refine ⟨(x, r), by rw [hr], fun next hnext => .defined ht ?_⟩
    exact hr' next (followedBy_bound (b := .parens) hnext d)

theorem rereads_binding {pos : Pos} {bindings : List (Text × Node)} {body : Node}
    (hdefinitions : ∀ b ∈ bindings, b.2 ≠ missing → b.2.Rereads .whole)
    (hbody : body.Rereads .whole) : (binding pos bindings body).Rereads .operand := by
  intro ts hts
  obtain ⟨t, ts, rfl, ht, hts⟩ := List.map_eq_cons_iff.1 hts
  obtain ⟨u, ts, rfl, hu, hts⟩ := List.map_eq_cons_iff.1 hts
  obtain ⟨us, ts, rfl, hus, hts⟩ := List.map_eq_append_iff.1 hts
  obtain ⟨v, ts, rfl, hv, hts⟩ := List.map_eq_cons_iff.1 hts
  obtain ⟨r, hr, hr'⟩ := hbody ts hts
  rw [lexemesBindings_eq] at hus
  obtain ⟨bs, hbs, hlisted⟩ : ∃ bs : List (Text × Node),
      bs.map (fun b => (b.1, b.2.bare)) = bindings.map (fun b => (b.1, b.2.bare)) ∧
        Listed .definition .parens us bs :=
    exists_listed (i := .definition) (b := .parens) (f := fun b => (b.1, b.2.bare))
      (fun b hb ts hts => rereads_definition (hdefinitions b hb) hts) hus
  refine ⟨.binding t.pos bs r, by simp [bareBindings_eq, hr, hbs], fun next hnext => ?_⟩
  have hprimary := Reads.letWord ht .none hu (hlisted.reads hv _).1 (hr' next hnext)
  simpa [Parser.binding] using Reads.operand hprimary (.callsEnd hnext.2.1)

theorem rereads_withoutElse {pos : Pos} {condition whenTrue : Node}
    (hcondition : condition.Rereads .whole) (htrue : whenTrue.Rereads .whole) :
    (branch pos condition whenTrue missing).Rereads .operand := by
  intro ts hts
  obtain ⟨t, ts, rfl, ht, hts⟩ := List.map_eq_cons_iff.1 hts
  obtain ⟨us, ts, rfl, hus, hts⟩ := List.map_eq_append_iff.1 hts
  obtain ⟨u, ts, rfl, hu, hts⟩ := List.map_eq_cons_iff.1 hts
  obtain ⟨vs, ws, rfl, hvs, hws⟩ := List.map_eq_append_iff.1 hts
  obtain rfl := List.map_eq_nil_iff.1 hws
  obtain ⟨c, hc, hc'⟩ := hcondition us hus
  obtain ⟨r, hr, hr'⟩ := htrue vs hvs
  refine ⟨.branch t.pos c r .missing, by simp [hc, hr], fun next hnext => ?_⟩
  -- Nothing that could be a second branch follows.
  have helse : next ≠ .keyword .elseWord := fun h => by
    simpa [endsOpen, isPresent] using hnext.2.2 h
  have hthen : Reads (.item .expression) us (ahead ([u] ++ vs) next) c :=
    hc' _ (followedBy_of_final (by simp [ahead, hu, Lexeme.Final, Parser.connective?]) condition)
  have hbranch := hr' next ⟨hnext.1, hnext.2.1, fun h => absurd h helse⟩
  have hprimary := Reads.ifWord ht (.withoutElse hthen (.word hu _) hbranch helse)
  simpa using Reads.operand hprimary (.callsEnd hnext.2.1)

theorem rereads_withElse {pos : Pos} {condition whenTrue whenFalse : Node}
    (hcondition : condition.Rereads .whole) (htrue : whenTrue.Rereads .whole)
    (hopen : whenTrue.endsOpen = false) (hpresent : whenFalse.isPresent = true)
    (hfalse : whenFalse.Rereads .whole) :
    (branch pos condition whenTrue whenFalse).Rereads .operand := by
  intro ts hts
  simp only [lexemes, hpresent, if_true] at hts
  obtain ⟨t, ts, rfl, ht, hts⟩ := List.map_eq_cons_iff.1 hts
  obtain ⟨us, ts, rfl, hus, hts⟩ := List.map_eq_append_iff.1 hts
  obtain ⟨u, ts, rfl, hu, hts⟩ := List.map_eq_cons_iff.1 hts
  obtain ⟨vs, ts, rfl, hvs, hts⟩ := List.map_eq_append_iff.1 hts
  obtain ⟨v, ws, rfl, hv, hws⟩ := List.map_eq_cons_iff.1 hts
  obtain ⟨c, hc, hc'⟩ := hcondition us hus
  obtain ⟨r, hr, hr'⟩ := htrue vs hvs
  obtain ⟨r₂, hr₂, hr₂'⟩ := hfalse ws hws
  refine ⟨.branch t.pos c r r₂, by simp [hc, hr, hr₂], fun next hnext => ?_⟩
  have hthen : Reads (.item .expression) us (ahead ([u] ++ (vs ++ v :: ws)) next) c :=
    hc' _ (followedBy_of_final (by simp [ahead, hu, Lexeme.Final, Parser.connective?]) condition)
  have hbranch := hr' v.lexeme (by simp [FollowedBy, hv, hopen, Parser.connective?])
  have hlast : whenFalse.FollowedBy next := by
    simpa [FollowedBy, endsOpen, hpresent] using hnext
  have hprimary := Reads.ifWord ht (.withElse hthen (.word hu _) hbranch hv (hr₂' next hlast))
  simpa using Reads.operand hprimary (.callsEnd hnext.2.1)

theorem rereads_assign {pos : Pos} {target value : Node} (htarget : target.Rereads .closed)
    (hvalue : value.Rereads .operand) : (assign pos target value).Rereads .whole := by
  intro ts hts
  obtain ⟨us, ts, rfl, hus, hts⟩ := List.map_eq_append_iff.1 hts
  obtain ⟨u, vs, rfl, hu, hvs⟩ := List.map_eq_cons_iff.1 hts
  obtain ⟨l, hl, hl'⟩ := htarget us hus
  obtain ⟨r, hr, hr'⟩ := hvalue vs hvs
  refine ⟨.assign l.pos l r, by simp [hl, hr], fun next hnext => ?_⟩
  have hc : Parser.connective? u.lexeme = some .assign := by
    rw [hu]
    decide
  exact reads_pair hc (hl'.operand (by simp [hu])) (hr' next hnext) hnext.1

end

theorem Printed.rereads {level : Level} {e : Node} (h : Printed level e) : e.Rereads level := by
  induction h with
  | @number pos x =>
    exact rereads_leaf rfl fun t ht => ⟨.number t.pos x, by simp [leaf?, ht], rfl⟩
  | @string pos x =>
    exact rereads_leaf rfl fun t ht => ⟨.string t.pos x, by simp [leaf?, ht], rfl⟩
  | @bool pos x =>
    exact rereads_leaf rfl fun t ht => ⟨.bool t.pos x, by cases x <;> simp_all [leaf?], rfl⟩
  | @identifier pos x =>
    exact rereads_leaf rfl fun t ht => ⟨.identifier t.pos x, by simp [leaf?, ht], rfl⟩
  | binary ho _ _ ihleft ihright => exact rereads_binary ho ihleft ihright
  | call _ _ ihcallee ihargs => exact rereads_call ihcallee ihargs
  | program hlength _ ih => exact rereads_program hlength ih
  | closed _ ih =>
    intro ts hts
    obtain ⟨r, hr, hr'⟩ := ih ts hts
    exact ⟨r, hr, fun next hnext => hr'.operand hnext.2.1⟩
  | lambda _ _ _ ih => exact rereads_lambda ih
  | binding _ _ _ ihdefinitions ihbody => exact rereads_binding ihdefinitions ihbody
  | withoutElse _ _ ihcondition ihtrue => exact rereads_withoutElse ihcondition ihtrue
  | withElse _ _ hopen hfalse ihcondition ihtrue ihfalse =>
    exact rereads_withElse ihcondition ihtrue hopen hfalse.isPresent ihfalse
  | operand _ ih =>
    intro ts hts
    obtain ⟨r, hr, hr'⟩ := ih ts hts
    refine ⟨r, hr, fun next hnext => ?_⟩
    have hend : Reads (.chain r 0) [] next r := .chainEnd fun c hc => by
      cases hnext.1.symm.trans hc
    simpa using Reads.expression (hr' next hnext) hend
  | assign _ _ ihtarget ihvalue => exact rereads_assign ihtarget ihvalue

end Node

/-- To print a tree and to parse its text gives the same tree, except for positions. -/
theorem Program.parse_render {e : Node} (h : e.Printed .whole) :
    ∃ pos r, Program.parse e.render = .ok ⟨pos, [r]⟩ ∧ r.bare = e.bare := by
  have hlexes : Lexes e.render (e.lexemes ++ []) := h.prints [] [] detached_nil (.finish .nil)
  rw [List.append_nil] at hlexes
  obtain ⟨ts, hscans, hts⟩ := hlexes.scans Pos.start
  obtain ⟨r, hr, hreads⟩ := h.rereads ts hts
  have hend : e.FollowedBy .endOfInput := by simp [Node.FollowedBy, Parser.connective?]
  obtain ⟨pos, hstream⟩ := Stream.ofSource_eq_iff.2 hscans
  refine ⟨firstPos pos ts, r, ?_, hr⟩
  exact parse_eq_ok_iff.2 ⟨ts, pos, hstream, .last (hreads _ hend), rfl⟩

theorem Program.parse_render_branch : ∃ pos r,
    Program.parse (bytes "if x then (y + \"q\")") = .ok ⟨pos, [r]⟩ ∧
      r.bare = .branch .none (.identifier .none (bytes "x"))
        (.binary .none .add (.identifier .none (bytes "y")) (.string .none (bytes "q")))
        .missing := by
  have hx : (bytes "x").IsName := ⟨⟨_, _, rfl, by decide, List.forall_mem_nil _⟩, by decide⟩
  have hy : (bytes "y").IsName := ⟨⟨_, _, rfl, by decide, List.forall_mem_nil _⟩, by decide⟩
  have hcondition : Node.Printed .whole (.identifier .none (bytes "x")) :=
    .operand (.closed (.identifier hx))
  have hsum : Node.Printed .closed
      (.binary .none .add (.identifier .none (bytes "y")) (.string .none (bytes "q"))) :=
    .binary (by decide) (.identifier hy)
      (.closed (.string (List.forall_mem_singleton.2 (by decide))))
  have hbranch : Node.Printed .whole (.branch .none _ _ .missing) :=
    .operand (.withoutElse hcondition (.operand (.closed hsum)))
  exact parse_render hbranch

end Mycel
