import CExpr.Parse.Run
import CExpr.Proofs.Expr.OfDerivation
import Mathlib.Data.List.Forall2

/-!
# Chains and folds

A parse puts the operators of a tier, the suffixes and the arguments after the first one into a
chain: each link holds the next one as its last node, and an empty node ends the chain. Building
takes the links from the left, so the chain leaves no trace. What comes out is the left fold of the
links over what they are built into, or the error of the first link that cannot be built.
-/

namespace CExpr

open Parse (Contents)

/-! ## One after the other -/

section InTurn

variable {ε ι β : Type} {build : ι → Except ε β}

/-- The error is that of the first item that cannot be built. -/
def FirstFails (build : ι → Except ε β) (items : List ι) (error : ε) : Prop :=
  ∃ before item after, items = before ++ item :: after ∧
    (∀ earlier ∈ before, ∃ value, build earlier = .ok value) ∧ build item = .error error

theorem mapM_eq_ok {items : List ι} {values : List β}
    (h : List.Forall₂ (fun item value ↦ build item = .ok value) items values) :
    items.mapM build = .ok values := by
  induction h with
  | nil => rfl
  | cons hitem _ ih =>
    rw [List.mapM_cons, hitem, ih]
    rfl

theorem FirstFails.mapM_eq_error {items : List ι} {error : ε} (h : FirstFails build items error) :
    items.mapM build = .error error := by
  obtain ⟨before, item, after, rfl, hbefore, hitem⟩ := h
  induction before with
  | nil =>
    rw [List.nil_append, List.mapM_cons, hitem]
    rfl
  | cons earlier before ih =>
    obtain ⟨⟨value, hvalue⟩, hbefore⟩ := List.forall_mem_cons.1 hbefore
    rw [List.cons_append, List.mapM_cons, hvalue, ih hbefore]
    rfl

theorem map_mapM_cons {ρ : Type} (item : ι) (items : List ι) (finish : List β → ρ) :
    ((item :: items).mapM build).map finish =
      build item >>= fun value ↦ (items.mapM build).map fun values ↦ finish (value :: values) := by
  rw [List.mapM_cons]
  cases build item with
  | error error => rfl
  | ok value => cases items.mapM build <;> rfl

end InTurn

theorem ok_bind {ε α β : Type} (value : α) (next : α → Except ε β) :
    (Except.ok value >>= next) = next value := rfl

theorem bind_ok_eq_map {ε α β : Type} (first : Except ε α) (f : α → β) :
    (first >>= fun value ↦ Except.ok (f value)) = first.map f := rfl

/-- The whole is built from a first tree and then from links, one after the other, and finished when
all of them are built. -/
structure BuiltInTurn {ι β ρ : Type} (first : Except TreeError Expr)
    (build : ι → Except TreeError β) (links : List ι) (finish : Expr → List β → ρ)
    (whole : Except TreeError ρ) : Prop where
  ok : ∀ left values, first = .ok left →
    List.Forall₂ (fun link value ↦ build link = .ok value) links values →
      whole = .ok (finish left values)
  firstError : ∀ error, first = .error error → whole = .error error
  linkError : ∀ left error, first = .ok left → FirstFails build links error →
    whole = .error error

theorem BuiltInTurn.of_eq {ι β ρ : Type} {first : Except TreeError Expr}
    {build : ι → Except TreeError β} {links : List ι} {finish : Expr → List β → ρ}
    {whole : Except TreeError ρ}
    (h : whole = first >>= fun left ↦ (links.mapM build).map (finish left)) :
    BuiltInTurn first build links finish whole where
  ok left values hfirst hlinks := by
    rw [h, hfirst, mapM_eq_ok hlinks]
    rfl
  firstError error hfirst := by
    rw [h, hfirst]
    rfl
  linkError left error hfirst hlinks := by
    rw [h, hfirst, hlinks.mapM_eq_error]
    rfl

/-! ## Chains -/

/-- The rest that holds the links one inside the other and ends in an empty node. -/
def Node.chain (rule : NonTerminal) (links : List Contents) : Node :=
  links.foldr (fun link rest ↦ ⟨rule, false, link.terminals, link.children ++ [rest]⟩)
    ⟨rule, true, [], []⟩

@[simp] theorem Node.tag_chain (rule : NonTerminal) (links : List Contents) :
    (chain rule links).tag = rule := by
  cases links <;> rfl

/-! ## Links -/

/-- An operator of a tier and the node of its right operand. -/
structure Tier.Link (tier : Tier) where
  sign : Token
  op : BinaryOp
  hsign : tier.operator? sign.kind = some op
  operand : Node

namespace Tier.Link

variable {tier : Tier}

def contents (link : tier.Link) : Contents := ⟨[link.sign], [link.operand]⟩

def built (link : tier.Link) : Except TreeError Expr := Expr.ofNode link.operand

/-- The operator applied to what stands on its left and to its built operand. -/
def apply (left : Expr) (step : tier.Link × Expr) : Expr :=
  .binary step.1.op left step.2 step.1.sign.location

end Tier.Link

/-- A suffix with its tokens and with the nodes between them. -/
inductive SuffixLink
  | step (sign : Token) (op : SuffixOp) (hsign : SuffixOp.ofKind? sign.kind = some op)
      (hop : op.isStep = true)
  | selection (sign : Token) (op : SuffixOp) (hsign : SuffixOp.ofKind? sign.kind = some op)
      (hop : op.isSelection = true) (member : Token)
  | index (opening : Token) (hopening : opening.kind = .punct '[') (inner : Node)
      (hinner : inner.tag = .expression) (closing : Token)
  | call (opening : Token) (hopening : opening.kind = .punct '(') (list : Node)
      (hlist : list.tag = .argumentList) (closing : Token)

namespace SuffixLink

def contents : SuffixLink → Contents
  | step sign _ _ _ => ⟨[sign], []⟩
  | selection sign _ _ _ member => ⟨[sign, member], []⟩
  | index opening _ inner _ closing => ⟨[opening, closing], [inner]⟩
  | call opening _ list _ closing => ⟨[opening, closing], [list]⟩

/-- What the nodes of the suffix are built into. -/
def built : SuffixLink → Except TreeError (List Expr)
  | step .. | selection .. => .ok []
  | index _ _ inner _ _ => do
    let index ← Expr.ofNode inner
    .ok [index]
  | call _ _ list _ _ => Expr.argumentsOf list

/-- The suffix applied to what stands on its left, with its built operands. -/
def apply (left : Expr) : SuffixLink × List Expr → Expr
  | (step sign op _ _, operands) => .suffixed op left none operands sign.location
  | (selection sign op _ _ member, operands) =>
    .suffixed op left (some member) operands sign.location
  | (index opening .., operands) => .suffixed .index left none operands opening.location
  | (call opening .., operands) => .suffixed .call left none operands opening.location

end SuffixLink

/-- An argument after a comma. -/
structure ArgumentLink where
  comma : Token
  hcomma : comma.kind = .punct ','
  argument : Node
  hargument : argument.tag = .assignment

namespace ArgumentLink

def contents (link : ArgumentLink) : Contents := ⟨[link.comma], [link.argument]⟩

def built (link : ArgumentLink) : Except TreeError Expr := Expr.ofNode link.argument

end ArgumentLink

namespace Expr

open Node (chain childTagged_eq_ok child_eq_ok)

/-! ## One link and what is behind it -/

section Link

variable {rest : Node}

theorem foldTier_link {tier : Tier} (left : Expr) (link : tier.Link)
    (hrest : rest.tag = .tierRest tier) :
    foldTier tier left ⟨.tierRest tier, false, [link.sign], [link.operand, rest]⟩ =
      link.built >>= fun right ↦ foldTier tier (Tier.Link.apply left (link, right)) rest := by
  rw [foldTier]
  simp [Node.terminal, Node.meaning, link.hsign, child_eq_ok, childTagged_eq_ok, hrest, ok_bind,
    Tier.Link.built, Tier.Link.apply]

/-- The node after a suffix is looked for behind the nodes of the suffix. -/
theorem foldSuffixes_link (left : Expr) (link : SuffixLink) (hrest : rest.tag = .suffixedRest) :
    foldSuffixes left
        ⟨.suffixedRest, false, link.contents.terminals, link.contents.children ++ [rest]⟩ =
      link.built >>= fun operands ↦ foldSuffixes (SuffixLink.apply left (link, operands)) rest := by
  rw [foldSuffixes]
  cases link with
  | step sign op hsign hop =>
    rcases SuffixOp.isStep_iff.1 hop with rfl | rfl <;>
      simp [SuffixLink.contents, SuffixLink.built, SuffixLink.apply, Node.terminal, Node.meaning,
        hsign, childTagged_eq_ok, hrest, ok_bind]
  | selection sign op hsign hop member =>
    rcases SuffixOp.isSelection_iff.1 hop with rfl | rfl <;>
      simp [SuffixLink.contents, SuffixLink.built, SuffixLink.apply, Node.terminal, Node.meaning,
        hsign, childTagged_eq_ok, hrest, ok_bind]
  | index opening hopening inner hinner closing =>
    have hop : SuffixOp.ofKind? opening.kind = some .index := by rw [hopening]; rfl
    simp [SuffixLink.contents, SuffixLink.built, SuffixLink.apply, Node.terminal, Node.meaning,
      hop, hinner, childTagged_eq_ok, hrest, ok_bind]
  | call opening hopening list hlist closing =>
    have hop : SuffixOp.ofKind? opening.kind = some .call := by rw [hopening]; rfl
    simp [SuffixLink.contents, SuffixLink.built, SuffixLink.apply, Node.terminal, Node.meaning,
      hop, hlist, childTagged_eq_ok, hrest, ok_bind]

theorem furtherArguments_link (link : ArgumentLink) (hrest : rest.tag = .argumentListRest) :
    furtherArguments ⟨.argumentListRest, false, [link.comma], [link.argument, rest]⟩ =
      link.built >>= fun argument ↦
        furtherArguments rest >>= fun arguments ↦ .ok (argument :: arguments) := by
  rw [furtherArguments]
  simp [link.hargument, childTagged_eq_ok, hrest, ok_bind, ArgumentLink.built]

end Link

/-! ## All links -/

theorem foldTier_chain {tier : Tier} (left : Expr) (links : List tier.Link) :
    foldTier tier left (chain (.tierRest tier) (links.map Tier.Link.contents)) =
      (links.mapM Tier.Link.built).map fun rights ↦
        (links.zip rights).foldl Tier.Link.apply left := by
  induction links generalizing left with
  | nil =>
    rw [foldTier]
    rfl
  | cons link links ih =>
    rw [map_mapM_cons]
    refine (foldTier_link left link (Node.tag_chain _ _)).trans ?_
    exact bind_congr fun right ↦ ih _

theorem foldSuffixes_chain (left : Expr) (links : List SuffixLink) :
    foldSuffixes left (chain .suffixedRest (links.map SuffixLink.contents)) =
      (links.mapM SuffixLink.built).map fun operands ↦
        (links.zip operands).foldl SuffixLink.apply left := by
  induction links generalizing left with
  | nil =>
    rw [foldSuffixes]
    rfl
  | cons link links ih =>
    rw [map_mapM_cons]
    refine (foldSuffixes_link left link (Node.tag_chain _ _)).trans ?_
    exact bind_congr fun operands ↦ ih _

theorem furtherArguments_chain (links : List ArgumentLink) :
    furtherArguments (chain .argumentListRest (links.map ArgumentLink.contents)) =
      links.mapM ArgumentLink.built := by
  induction links with
  | nil =>
    rw [furtherArguments]
    rfl
  | cons link links ih =>
    rw [List.mapM_cons, ← ih]
    exact furtherArguments_link link (Node.tag_chain _ _)

end Expr

/-! ## The chains of a parse -/

namespace Derivation

open Node (chain)

theorem exists_links_of_tierRest {tier : Tier} : (rest : Derivation (.tierRest tier)) →
    ∃ links : List tier.Link, rest.toNode = chain (.tierRest tier) (links.map Tier.Link.contents)
  | noOperator => ⟨[], rfl⟩
  | operator sign op hsign operand rest => by
    obtain ⟨links, hlinks⟩ := rest.exists_links_of_tierRest
    refine ⟨⟨sign, op, hsign, operand.toNode⟩ :: links, ?_⟩
    rw [toNode, hlinks]
    rfl

theorem exists_links_of_suffixedRest : (rest : Derivation .suffixedRest) →
    ∃ links : List SuffixLink, rest.toNode = chain .suffixedRest (links.map SuffixLink.contents)
  | noSuffix => ⟨[], rfl⟩
  | step sign op hsign hop rest => by
    obtain ⟨links, hlinks⟩ := rest.exists_links_of_suffixedRest
    refine ⟨.step sign op hsign hop :: links, ?_⟩
    rw [toNode, hlinks]
    rfl
  | selection sign op hsign hop member _ rest => by
    obtain ⟨links, hlinks⟩ := rest.exists_links_of_suffixedRest
    refine ⟨.selection sign op hsign hop member :: links, ?_⟩
    rw [toNode, hlinks]
    rfl
  | index opening hopening body closing _ rest => by
    obtain ⟨links, hlinks⟩ := rest.exists_links_of_suffixedRest
    refine ⟨.index opening hopening body.toNode body.tag_toNode closing :: links, ?_⟩
    rw [toNode, hlinks]
    rfl
  | call opening hopening list closing _ rest => by
    obtain ⟨links, hlinks⟩ := rest.exists_links_of_suffixedRest
    refine ⟨.call opening hopening list.toNode list.tag_toNode closing :: links, ?_⟩
    rw [toNode, hlinks]
    rfl

theorem exists_links_of_argumentListRest : (rest : Derivation .argumentListRest) →
    ∃ links : List ArgumentLink,
      rest.toNode = chain .argumentListRest (links.map ArgumentLink.contents)
  | noArgument => ⟨[], rfl⟩
  | argument comma hcomma first rest => by
    obtain ⟨links, hlinks⟩ := rest.exists_links_of_argumentListRest
    refine ⟨⟨comma, hcomma, first.toNode, first.tag_toNode⟩ :: links, ?_⟩
    rw [toNode, hlinks]
    rfl

end Derivation

/-! ## Folds -/

/-- The node of a rule with a first node and the rest behind it. -/
def Node.headed (rule : NonTerminal) (first rest : Node) : Node := ⟨rule, false, [], [first, rest]⟩

open CExpr.Expr (ofNode argumentsOf foldTier_chain foldSuffixes_chain furtherArguments_chain)
open Node (chain headed child_eq_ok childTagged_eq_ok)

/-- A tier and the suffixes are folded from the left, the arguments come in their order, and the
first error from the left is the one that is given. The rests of a parse are such chains. -/
theorem builtInTurn_of_chain :
    (∀ (tier : Tier) (first : Node) (links : List tier.Link),
      BuiltInTurn (ofNode first) Tier.Link.built links
        (fun left rights ↦ (links.zip rights).foldl Tier.Link.apply left)
        (ofNode (headed (.tier tier) first
          (chain (.tierRest tier) (links.map Tier.Link.contents))))) ∧
    (∀ (first : Node) (links : List SuffixLink), first.tag = .primary →
      BuiltInTurn (ofNode first) SuffixLink.built links
        (fun left operands ↦ (links.zip operands).foldl SuffixLink.apply left)
        (ofNode (headed .suffixed first (chain .suffixedRest (links.map SuffixLink.contents))))) ∧
    (∀ (first : Node) (links : List ArgumentLink), first.tag = .assignment →
      BuiltInTurn (ofNode first) ArgumentLink.built links List.cons
        (argumentsOf (headed .argumentList first
          (chain .argumentListRest (links.map ArgumentLink.contents))))) ∧
    (∀ (tier : Tier) (rest : Derivation (.tierRest tier)), ∃ links : List tier.Link,
      rest.toNode = chain (.tierRest tier) (links.map Tier.Link.contents)) ∧
    (∀ rest : Derivation .suffixedRest, ∃ links : List SuffixLink,
      rest.toNode = chain .suffixedRest (links.map SuffixLink.contents)) ∧
    (∀ rest : Derivation .argumentListRest, ∃ links : List ArgumentLink,
      rest.toNode = chain .argumentListRest (links.map ArgumentLink.contents)) := by
  refine ⟨fun tier first links ↦ .of_eq ?_, fun first links hfirst ↦ .of_eq ?_,
    fun first links hfirst ↦ .of_eq ?_, fun tier ↦ Derivation.exists_links_of_tierRest,
    Derivation.exists_links_of_suffixedRest, Derivation.exists_links_of_argumentListRest⟩
  · rw [ofNode]
    simp [headed, child_eq_ok, childTagged_eq_ok, ok_bind, foldTier_chain]
  · rw [ofNode]
    simp [headed, childTagged_eq_ok, hfirst, ok_bind, foldSuffixes_chain]
  · rw [argumentsOf]
    simp [headed, childTagged_eq_ok, hfirst, ok_bind, bind_ok_eq_map, furtherArguments_chain]

/-- A name as a primary expression. -/
def nameNode (text : String) : Node := ⟨.primary, false, [⟨.identifier, .start, text⟩], []⟩

theorem ofNode_nameNode (text : String) :
    ofNode (nameNode text) = .ok (.primary ⟨.identifier, .start, text⟩) := by
  rw [ofNode]
  rfl

/-- A name taken from what stands before it. -/
def minusLink (text : String) : Tier.additive.Link :=
  ⟨⟨.punct '-', .start, "-"⟩, .minus, rfl, nameNode text⟩

def incrementLink : SuffixLink := .step ⟨.compound .increment, .start, "++"⟩ .increment rfl rfl

/-- An index of which nothing is there. -/
def missingIndexLink : SuffixLink :=
  .index ⟨.punct '[', .start, "["⟩ rfl ⟨.expression, true, [], []⟩ rfl ⟨.punct ']', .start, "]"⟩

/-- An argument of which nothing is there. -/
def missingArgument : Node := ⟨.assignment, true, [], []⟩

def missingArgumentLink : ArgumentLink :=
  ⟨⟨.punct ',', .start, ","⟩, rfl, missingArgument, rfl⟩

/-- The second name is taken from the first difference, the step is of no help to the index behind
it, and the first argument is the one that is missed. -/
theorem builtInTurn_of_short_chain :
    ofNode (headed (.tier .additive) (nameNode "a")
        (chain (.tierRest .additive) ([minusLink "b", minusLink "c"].map Tier.Link.contents))) =
      .ok (.binary .minus
        (.binary .minus (.primary ⟨.identifier, .start, "a"⟩)
          (.primary ⟨.identifier, .start, "b"⟩) .start)
        (.primary ⟨.identifier, .start, "c"⟩) .start) ∧
    ofNode (headed .suffixed (nameNode "a")
        (chain .suffixedRest
          ([incrementLink, missingIndexLink, incrementLink].map SuffixLink.contents))) =
      .error (.missingChild .expression) ∧
    argumentsOf (headed .argumentList missingArgument
        (chain .argumentListRest ([missingArgumentLink].map ArgumentLink.contents))) =
      .error (.missingChild .assignment) := by
  have hindex : missingIndexLink.built = .error (.missingChild .expression) := by
    cbv
  have hargument : ofNode missingArgument = .error (.missingChild .assignment) := by
    cbv
  refine ⟨?_, ?_, ?_⟩
  · exact (builtInTurn_of_chain.1 .additive (nameNode "a") [minusLink "b", minusLink "c"]).ok _ _
      (ofNode_nameNode "a") (.cons (ofNode_nameNode "b") (.cons (ofNode_nameNode "c") .nil))
  · exact (builtInTurn_of_chain.2.1 (nameNode "a") _ rfl).linkError _ _ (ofNode_nameNode "a")
      ⟨[incrementLink], missingIndexLink, [incrementLink], rfl,
        List.forall_mem_singleton.2 ⟨[], rfl⟩, hindex⟩
  · exact (builtInTurn_of_chain.2.2.1 missingArgument [missingArgumentLink] rfl).firstError _
      hargument

end CExpr
