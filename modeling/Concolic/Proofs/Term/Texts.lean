import Concolic.Proofs.State.Equality
import Concolic.Proofs.Term.Equality
import Concolic.Proofs.Term.Literals
import Concolic.Term.Names

/-!
# Written forms respect equality

Terms, predicates and states that are the same are written alike. A term is written from its head
and the texts of its operands, and a state from its items. So a function whose body is exchanged
for a body that is the same stays the same, and so does every other term when its operands are.
Conversely, terms of one shape and one type that are written alike over operands that are the same
are the same: the shape and the operands leave nothing of the written form but what is compared.

## Main statements

* `Term.text_of_same`, `Clause.text_of_beq`, `State.text_of_beq` — what is the same is written
  alike.
* `Term.beq_iff_text` — terms are the same by their shapes, written forms, types and operands.
* `Term.lambda_congr` and its kind — a term is the same when its operands are.
-/

namespace Concolic

/-! ## Terms -/

theorem Leaf.text_of_beq {a b : Leaf} (type : ValueType) (h : (a == b) = true) :
    a.text type = b.text type := by
  rw [beq_iff_signature] at h
  cases a <;> cases b <;> simp_all [signature, text]

theorem UnaryOp.text_of_beq {a b : UnaryOp} (type : ValueType) (operand : String)
    (h : (a == b) = true) : a.text type operand = b.text type operand := by
  rw [beq_iff_signature] at h
  cases a <;> cases b <;> simp_all [signature, text]

namespace Term

variable {a b : Term}

theorem texts_eq_map (ts : List Term) : Term.texts ts = ts.map Term.text := by
  induction ts with
  | nil => rfl
  | cons t ts ih => rw [texts, ih, List.map_cons]

theorem type_of_head (h : a.head = b.head) : a.type = b.type := by
  cases a <;> cases b <;> simp_all [head, type]

theorem type_of_same (h : (a == b) = true) : a.type = b.type := type_of_head (same_iff_head.mp h).1

/-- A term is written from its head and the texts of its operands. -/
theorem text_of_head {s t : Term} (hhead : s.head = t.head)
    (hoperands : s.operands.map Term.text = t.operands.map Term.text) : s.text = t.text := by
  cases s with
  | leaf type l =>
    cases t with
    | leaf type' l' =>
      simp only [head, Head.leaf.injEq] at hhead
      obtain ⟨rfl, hleaf⟩ := hhead
      exact Leaf.text_of_beq type (Leaf.beq_iff_signature.mpr hleaf)
    | unary | binary | ternary | call | lambda => cases hhead
  | unary op type a =>
    cases t with
    | unary op' type' b =>
      simp only [head, Head.unary.injEq] at hhead
      simp only [operands, List.map_cons, List.map_nil, List.cons.injEq, and_true] at hoperands
      obtain ⟨rfl, hop⟩ := hhead
      rw [text, text, hoperands]
      exact UnaryOp.text_of_beq type b.text (UnaryOp.beq_iff_signature.mpr hop)
    | leaf | binary | ternary | call | lambda => cases hhead
  | binary op type a b =>
    cases t with
    | binary op' type' c d =>
      simp only [head, Head.binary.injEq] at hhead
      simp only [operands, List.map_cons, List.map_nil, List.cons.injEq, and_true] at hoperands
      rw [text, text, hhead.2, hoperands.1, hoperands.2]
    | leaf | unary | ternary | call | lambda => cases hhead
  | ternary op type a b c =>
    cases t with
    | ternary op' type' d e f =>
      simp only [head, Head.ternary.injEq] at hhead
      simp only [operands, List.map_cons, List.map_nil, List.cons.injEq, and_true] at hoperands
      rw [text, text, hhead.2, hoperands.1, hoperands.2.1, hoperands.2.2]
    | leaf | unary | binary | call | lambda => cases hhead
  | call type method receiver arguments =>
    cases t with
    | call type' method' receiver' arguments' =>
      simp only [head, Head.call.injEq] at hhead
      simp only [operands, List.map_cons, List.cons.injEq] at hoperands
      rw [text, text, hhead.2, hoperands.1, texts_eq_map, texts_eq_map, hoperands.2]
    | leaf | unary | binary | ternary | lambda => cases hhead
  | lambda type params body =>
    cases t with
    | lambda type' params' body' =>
      simp only [head, Head.lambda.injEq, State.text] at hhead
      have hbody : String.join (State.lines 1 body) = String.join (State.lines 1 body') := by
        simpa [String.append_left_inj, String.append_right_inj] using hhead.2
      rw [text, text, texts_eq_map, texts_eq_map, hbody]
      simp only [operands] at hoperands
      rw [hoperands]
    | leaf | unary | binary | ternary | call => cases hhead

theorem map_text_of_sameAll {as bs : List Term}
    (h : ∀ a ∈ as, ∀ {b : Term}, Term.same a b = true → a.text = b.text)
    (hsame : Term.sameAll as bs = true) : as.map Term.text = bs.map Term.text := by
  induction as generalizing bs with
  | nil => cases bs <;> simp_all [Term.sameAll]
  | cons a as ih =>
    cases bs with
    | nil => simp [Term.sameAll] at hsame
    | cons b bs =>
      rw [Term.sameAll, Bool.and_eq_true] at hsame
      rw [List.forall_mem_cons] at h
      rw [List.map_cons, List.map_cons, h.1 hsame.1, ih h.2 hsame.2]

/-- Terms that are the same are written alike. -/
theorem text_of_same : Term.same a b = true → a.text = b.text := by
  induction a using operands_induction generalizing b with
  | step a ih =>
    intro h
    obtain ⟨hhead, hoperands⟩ := same_iff_head.mp h
    exact text_of_head hhead (map_text_of_sameAll ih hoperands)

theorem sameAll_iff {as bs : List Term} : Term.sameAll as bs = true ↔ (as == bs) = true := by
  induction as generalizing bs with
  | nil => cases bs <;> simp [Term.sameAll]
  | cons a as ih =>
    cases bs with
    | nil => simp [Term.sameAll]
    | cons b bs =>
      rw [Term.sameAll, List.cons_beq_cons, Bool.and_eq_true, Bool.and_eq_true, ih]
      exact Iff.rfl

theorem map_text_of_beq {as bs : List Term} (h : (as == bs) = true) :
    as.map Term.text = bs.map Term.text :=
  map_text_of_sameAll (fun _ _ => text_of_same) (sameAll_iff.mpr h)

end Term

/-! ## Terms that are written alike -/

theorem Arithmetic.symbol_inj {a b : Arithmetic} (h : a.symbol = b.symbol) : a = b := by
  cases a <;> cases b <;> simp_all [symbol]

theorem Comparison.symbol_inj {a b : Comparison} (h : a.symbol = b.symbol) : a = b := by
  cases a <;> cases b <;> simp_all [symbol]

theorem Leaf.signature_of_text {a b : Leaf} {type : ValueType} (hname : a.name = b.name)
    (htext : a.text type = b.text type) : a.signature = b.signature := by
  cases a with
  | argument i =>
    cases b with
    | argument j =>
      obtain rfl := Literal.natRepr_inj ((String.append_right_inj _).mp htext)
      rfl
    | value | result | undefined | literal | statics => simp [name] at hname
  | value | result | undefined | literal | statics =>
    cases b <;> simp_all [name, text, signature]

theorem Leaf.name_of_signature {a b : Leaf} (h : a.signature = b.signature) : a.name = b.name := by
  cases a <;> cases b <;> simp_all [name, signature]

theorem UnaryOp.signature_of_text {a b : UnaryOp} {type : ValueType} {operand : String}
    (hname : a.name = b.name) (htext : a.text type operand = b.text type operand) :
    a.signature = b.signature := by
  cases a <;> cases b <;> simp_all [name, text, signature]

theorem UnaryOp.name_of_signature {a b : UnaryOp} (h : a.signature = b.signature) :
    a.name = b.name := by
  cases a <;> cases b <;> simp_all [name, signature]

theorem BinaryOp.eq_of_text {a b : BinaryOp} {x y : String} (hname : a.name = b.name)
    (htext : a.text x y = b.text x y) : a = b := by
  cases a with
  | arithmetic op =>
    cases b with
    | arithmetic op' =>
      simp only [text, String.append_left_inj, String.append_right_inj] at htext
      rw [Arithmetic.symbol_inj htext]
    | _ => simp [name] at hname
  | compare op =>
    cases b with
    | compare op' =>
      simp only [text, String.append_left_inj, String.append_right_inj] at htext
      rw [Comparison.symbol_inj htext]
    | _ => simp [name] at hname
  | _ => cases b <;> simp_all [name]

theorem TernaryOp.name_inj {a b : TernaryOp} (h : a.name = b.name) : a = b := by
  cases a <;> cases b <;> simp_all [name]

namespace Term

/-- The number of the constructor that terms of a shape are built by. -/
def builtBy (shape : String) : Nat :=
  if shape ∈ ["arg", "value", "retval", "undef", "const", "static"] then 0
  else if shape ∈ ["neg", "array_length", "array_load", "field", "field_load", "cast",
    "instance_of", "string_length", "to_string", "string_parse"] then 1
  else if shape ∈ ["binary", "cmp", "array_index", "array_contains", "equals", "concat", "char_at",
    "string_contains"] then 2
  else if shape ∈ ["index_of", "substring", "ite", "forall", "exists"] then 3
  else if shape = "call" then 4
  else 5

theorem builtBy_shape (t : Term) : builtBy t.shape = t.ctorIdx := by
  cases t with
  | leaf type l => cases l <;> rfl
  | unary op | binary op | ternary op => cases op <;> rfl
  | call | lambda => rfl

/-- Terms of one shape and type that are written alike over operands that are have one head. -/
theorem head_of_text {s t : Term} (hshape : s.shape = t.shape) (htext : s.text = t.text)
    (htype : s.type = t.type) (hoperands : s.operands.map Term.text = t.operands.map Term.text) :
    s.head = t.head := by
  have hbuilt : s.ctorIdx = t.ctorIdx := by rw [← builtBy_shape, ← builtBy_shape, hshape]
  cases s with
  | leaf type l =>
    cases t with
    | leaf type' l' =>
      obtain rfl : type = type' := htype
      rw [head, head, Leaf.signature_of_text hshape htext]
    | unary | binary | ternary | call | lambda => cases hbuilt
  | unary op type a =>
    cases t with
    | unary op' type' b =>
      obtain rfl : type = type' := htype
      simp only [operands, List.map_cons, List.map_nil, List.cons.injEq, and_true] at hoperands
      rw [text, text, hoperands] at htext
      rw [head, head, UnaryOp.signature_of_text hshape htext]
    | leaf | binary | ternary | call | lambda => cases hbuilt
  | binary op type a b =>
    cases t with
    | binary op' type' c d =>
      obtain rfl : type = type' := htype
      simp only [operands, List.map_cons, List.map_nil, List.cons.injEq, and_true] at hoperands
      rw [text, text, hoperands.1, hoperands.2] at htext
      rw [head, head, BinaryOp.eq_of_text hshape htext]
    | leaf | unary | ternary | call | lambda => cases hbuilt
  | ternary op type a b c =>
    cases t with
    | ternary op' type' d e f =>
      obtain rfl : type = type' := htype
      rw [head, head, TernaryOp.name_inj hshape]
    | leaf | unary | binary | call | lambda => cases hbuilt
  | call type method receiver arguments =>
    cases t with
    | call type' method' receiver' arguments' =>
      obtain rfl : type = type' := htype
      simp only [operands, List.map_cons, List.cons.injEq] at hoperands
      rw [text, text, hoperands.1, texts_eq_map, texts_eq_map, hoperands.2] at htext
      simp only [String.append_left_inj, String.append_right_inj] at htext
      rw [head, head, htext]
    | leaf | unary | binary | ternary | lambda => cases hbuilt
  | lambda type params body =>
    cases t with
    | lambda type' params' body' =>
      obtain rfl : type = type' := htype
      simp only [operands] at hoperands
      rw [text, text, texts_eq_map, texts_eq_map, hoperands] at htext
      simp only [String.append_left_inj, String.append_right_inj] at htext
      rw [head, head, State.text, State.text, htext]
    | leaf | unary | binary | ternary | call => cases hbuilt

theorem shape_of_head {s t : Term} (h : s.head = t.head) : s.shape = t.shape := by
  cases s with
  | leaf type l =>
    cases t with
    | leaf type' l' => exact Leaf.name_of_signature (Head.leaf.inj h).2
    | unary | binary | ternary | call | lambda => cases h
  | unary op =>
    cases t with
    | unary op' => exact UnaryOp.name_of_signature (Head.unary.inj h).2
    | leaf | binary | ternary | call | lambda => cases h
  | binary op =>
    cases t with
    | binary op' => rw [shape, shape, (Head.binary.inj h).2]
    | leaf | unary | ternary | call | lambda => cases h
  | ternary op =>
    cases t with
    | ternary op' => rw [shape, shape, (Head.ternary.inj h).2]
    | leaf | unary | binary | call | lambda => cases h
  | call =>
    cases t with
    | call => rfl
    | leaf | unary | binary | ternary | lambda => cases h
  | lambda =>
    cases t with
    | lambda => rfl
    | leaf | unary | binary | ternary | call => cases h

/-- Terms are the same exactly when their shapes, their written forms and their types are equal and
their operands are the same in pairs. -/
theorem beq_iff_text {s t : Term} : (s == t) = true ↔ s.shape = t.shape ∧ s.text = t.text ∧
    s.type = t.type ∧ (s.operands == t.operands) = true := by
  constructor
  · intro h
    obtain ⟨hhead, hoperands⟩ := same_iff_head.mp h
    exact ⟨shape_of_head hhead, text_of_same h, type_of_same h, sameAll_iff.mp hoperands⟩
  · rintro ⟨hshape, htext, htype, hoperands⟩
    exact same_iff_head.mpr ⟨head_of_text hshape htext htype (map_text_of_beq hoperands),
      sameAll_iff.mpr hoperands⟩

end Term

/-! ## Predicates -/

/-- Assertions that are the same are written alike. -/
theorem Assertion.text_of_beq {p q : Assertion Term} (h : (p == q) = true) : p.text = q.text := by
  change Assertion.same p q = true at h
  cases p with
  | unary verb a =>
    cases q with
    | unary verb' b =>
      simp only [Assertion.same, Bool.and_eq_true, beq_iff_eq] at h
      obtain ⟨rfl, hab⟩ := h
      have htext := Term.text_of_same hab
      have htype := Term.type_of_same hab
      cases verb <;> simp [Assertion.text, htext, htype]
    | binary | newArray | generate => simp [Assertion.same] at h
  | binary verb a b =>
    cases q with
    | binary verb' c d =>
      simp only [Assertion.same, Bool.and_eq_true, beq_iff_eq] at h
      obtain ⟨⟨rfl, hac⟩, hbd⟩ := h
      have hfirst := Term.text_of_same hac
      have hsecond := Term.text_of_same hbd
      cases verb <;> simp [Assertion.text, hfirst, hsecond]
    | unary | newArray | generate => simp [Assertion.same] at h
  | newArray a as =>
    cases q with
    | newArray b bs =>
      simp only [Assertion.same, Bool.and_eq_true] at h
      rw [Assertion.text, Assertion.text, Term.text_of_same h.1, Term.type_of_same h.1,
        Term.texts_eq_map, Term.texts_eq_map, Term.map_text_of_beq h.2]
    | unary | binary | generate => simp [Assertion.same] at h
  | generate a b c =>
    cases q with
    | generate d e f =>
      simp only [Assertion.same, Bool.and_eq_true] at h
      rw [Assertion.text, Assertion.text, Term.text_of_same h.1.1, Term.type_of_same h.1.1,
        Term.text_of_same h.1.2, Term.text_of_same h.2]
    | unary | binary | newArray => simp [Assertion.same] at h

/-- Predicates that are the same are written alike. -/
theorem Clause.text_of_beq {p q : Predicate} (h : (p == q) = true) : p.text = q.text := by
  obtain ⟨hrole, hassertion⟩ := Clause.beq_iff.mp h
  rw [Clause.text, Clause.text, hrole, Assertion.text_of_beq hassertion]

/-! ## States -/

namespace State

namespace Item

mutual

/-- The lines of an item at some depth, each with its line end. -/
def lines (depth : Nat) : Item Predicate → List String
  | .part p => [indent depth ++ p.text ++ "\n"]
  | .branch alternatives =>
    (indent depth ++ "BEGIN_OR\n") ::
      branchLines depth true alternatives ++ [indent depth ++ "END_OR\n"]

def runLines (depth : Nat) : List (Item Predicate) → List String
  | [] => []
  | x :: xs => lines depth x ++ runLines depth xs

def branchLines (depth : Nat) (isFirst : Bool) : List (List (Item Predicate)) → List String
  | [] => []
  | xs :: rest =>
    (if isFirst then [] else [indent depth ++ "OR\n"]) ++ runLines (depth + 1) xs
      ++ branchLines depth false rest

end

theorem runLines_append (depth : Nat) (xs ys : List (Item Predicate)) :
    runLines depth (xs ++ ys) = runLines depth xs ++ runLines depth ys := by
  induction xs with
  | nil => rfl
  | cons x xs ih => rw [List.cons_append, runLines, runLines, ih, List.append_assoc]

theorem runLines_map_part (depth : Nat) (parts : List Predicate) :
    runLines depth (parts.map .part) = State.partLines depth parts := by
  induction parts with
  | nil => rfl
  | cons p parts ih => rw [List.map_cons, runLines, lines, State.partLines, ih]; rfl

mutual

theorem lines_of_same : ∀ {x y : Item Predicate} (depth : Nat), Item.same x y = true →
    lines depth x = lines depth y
  | .part p, .part q, depth, h => by
    rw [lines, lines, Clause.text_of_beq (by simpa [Item.same] using h)]
  | .branch xs, .branch ys, depth, h => by
    rw [lines, lines, branchLines_of_same depth true (by simpa [Item.same] using h)]
  | .part _, .branch _, _, h => by simp [Item.same] at h
  | .branch _, .part _, _, h => by simp [Item.same] at h

theorem runLines_of_same : ∀ {xs ys : List (Item Predicate)} (depth : Nat),
    sameRuns xs ys = true → runLines depth xs = runLines depth ys
  | [], [], _, _ => rfl
  | x :: xs, y :: ys, depth, h => by
    rw [sameRuns, Bool.and_eq_true] at h
    rw [runLines, runLines, lines_of_same depth h.1, runLines_of_same depth h.2]
  | [], _ :: _, _, h => by simp [sameRuns] at h
  | _ :: _, [], _, h => by simp [sameRuns] at h

theorem branchLines_of_same : ∀ {xs ys : List (List (Item Predicate))} (depth : Nat)
    (isFirst : Bool), sameBranches xs ys = true →
      branchLines depth isFirst xs = branchLines depth isFirst ys
  | [], [], _, _, _ => rfl
  | xs :: rest, ys :: rest', depth, isFirst, h => by
    rw [sameBranches, Bool.and_eq_true] at h
    rw [branchLines, branchLines, runLines_of_same (depth + 1) h.1,
      branchLines_of_same depth false h.2]
  | [], _ :: _, _, _, h => by simp [sameBranches] at h
  | _ :: _, [], _, _, h => by simp [sameBranches] at h

end

end Item

mutual

/-- A state is written from its items. -/
theorem lines_eq_runLines : ∀ (s : SymbolicState) (depth : Nat),
    s.lines depth = Item.runLines depth s.items
  | .basic parts, depth => by rw [State.lines, items_basic, Item.runLines_map_part]
  | .chain s t, depth => by
    rw [State.lines, items_chain, Item.runLines_append, lines_eq_runLines s depth,
      lines_eq_runLines t depth]
  | .choice alternatives, depth => by
    rw [State.lines]
    by_cases hempty : (State.choice alternatives).isEmpty = true
    · rw [if_pos hempty, isEmpty_iff.mp hempty]
      rfl
    · have hitems : (State.choice alternatives).items = [.branch (itemsOfAll alternatives)] := by
        rw [isEmpty_iff, items] at hempty
        rw [items]
        split
        · next h => exact absurd (if_pos h) hempty
        · rfl
      rw [if_neg hempty, hitems, Item.runLines, Item.lines, branchLines_eq alternatives depth true,
        Item.runLines, List.append_nil]

theorem branchLines_eq : ∀ (states : List SymbolicState) (depth : Nat) (isFirst : Bool),
    State.branchLines depth isFirst states = Item.branchLines depth isFirst (itemsOfAll states)
  | [], _, _ => by simp only [State.branchLines, itemsOfAll, Item.branchLines]
  | s :: rest, depth, isFirst => by
    rw [State.branchLines, itemsOfAll, Item.branchLines, lines_eq_runLines s (depth + 1),
      branchLines_eq rest depth false]

end

/-- States that are the same are written alike. -/
theorem text_of_beq {s t : SymbolicState} (h : (s == t) = true) : s.text = t.text := by
  have hitems : Item.sameRuns s.items t.items = true := h
  rw [text, text, lines_eq_runLines, lines_eq_runLines, Item.runLines_of_same 1 hitems]

end State

/-! ## Terms over operands that are the same -/

namespace Term

variable {type : ValueType} {a a' b b' c c' : Term} {as as' : List Term}
  {body body' : SymbolicState}

theorem unary_congr {op : UnaryOp} (ha : (a == a') = true) :
    (Term.unary op type a == Term.unary op type a') = true :=
  same_iff_head.mpr ⟨rfl, by
    rw [operands, operands, sameAll_iff, List.cons_beq_cons, ha]; rfl⟩

theorem binary_congr {op : BinaryOp} (ha : (a == a') = true) (hb : (b == b') = true) :
    (Term.binary op type a b == Term.binary op type a' b') = true :=
  same_iff_head.mpr ⟨rfl, by
    rw [operands, operands, sameAll_iff, List.cons_beq_cons, List.cons_beq_cons, ha, hb]; rfl⟩

theorem ternary_congr {op : TernaryOp} (ha : (a == a') = true) (hb : (b == b') = true)
    (hc : (c == c') = true) :
    (Term.ternary op type a b c == Term.ternary op type a' b' c') = true :=
  same_iff_head.mpr ⟨rfl, by
    rw [operands, operands, sameAll_iff, List.cons_beq_cons, List.cons_beq_cons,
      List.cons_beq_cons, ha, hb, hc]; rfl⟩

theorem call_congr {method : Method} (ha : (a == a') = true) (has : (as == as') = true) :
    (Term.call type method a as == Term.call type method a' as') = true :=
  same_iff_head.mpr ⟨rfl, by
    rw [operands, operands, Term.sameAll, Bool.and_eq_true, sameAll_iff]
    exact ⟨ha, has⟩⟩

/-- A function stays the same when its body is exchanged for one that is the same. -/
theorem lambda_congr (has : (as == as') = true) (hbody : (body == body') = true) :
    (Term.lambda type as body == Term.lambda type as' body') = true :=
  same_iff_head.mpr ⟨by rw [head, head, State.text_of_beq hbody], sameAll_iff.mpr has⟩

end Term
end Concolic
