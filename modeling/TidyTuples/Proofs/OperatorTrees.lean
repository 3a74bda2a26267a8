import Mathlib.Data.BitVec
import TidyTuples.Codegen.Types
import TidyTuples.Proofs.LineBuilding

/-!
# The operators of the wrapper types on the hosts

The backend has no code for `Div` and `Rem`. A byte offset is added as a number of 32 bits, and
arm64 has immediates for some offsets and for counts below 64 only.
-/

namespace TidyTuples

open Codegen

/-- The records the operators make. -/
def Instr.isOperator : Instr → Bool
  | .binary op _ _ _ => op.isBinary && op != .store
  | .unary op _ _ => op == .lNot
  | .rotateRight _ _ => true
  | .gep _ _ => true
  | _ => false

/-! ### What the operators mean -/

namespace Codegen

def Int64.Op.eval (op : Int64.Op) (a b : Word) : Word :=
  match op with
  | .add => a + b
  | .sub => a - b
  | .mul => a * b
  | .div => a.sdiv b
  | .rem => a.srem b
  | .and => a &&& b
  | .or => a ||| b
  | .xor => a ^^^ b

def Int64.Op.isDivision : Int64.Op → Bool
  | .div | .rem => true
  | _ => false

def Int64.Comparison.eval (op : Int64.Comparison) (a b : Word) : Bool :=
  match op with
  | .eq => a == b
  | .ne => a != b
  | .lt => a.slt b
  | .gt => b.slt a
  | .le => a.sle b
  | .ge => b.sle a

def UInt64.Op.eval (op : UInt64.Op) (a b : Word) : Word :=
  match op with
  | .add => a + b
  | .mul => a * b
  | .xor => a ^^^ b
  | .and => a &&& b
  | .crc32 => (Arch.crc32c 64 (a.truncate 32) b).zeroExtend 64

def Bool.Op.eval (op : Bool.Op) (a b : Bool) : Bool :=
  match op with
  | .and => a && b
  | .or => a || b

end Codegen

namespace OperatorTree

open IRProgram (wordOfBool)

section

variable (env : IRValueRef → Word)

/-- The meaning of a tree, by the values of its operands. A pointer is an address, and a truth
value is 0 or 1. -/
def eval {k : WrapperType} : OperatorTree k → Word
  | operand ref => env ref
  | int64 op a b => op.eval a.eval b.eval
  | compare op a b => wordOfBool (op.eval a.eval b.eval)
  | uint64 op a b => op.eval a.eval b.eval
  | rotateRight a bits => a.eval.rotateRight bits
  | equal a b => wordOfBool (a.eval == b.eval)
  | logic op a b => wordOfBool (op.eval (a.eval != 0) (b.eval != 0))
  | lnot a => wordOfBool (!(a.eval != 0))
  | offset base byteOffset => base.eval + byteOffset

/-- An operand of type `Bool` is a truth value, and no divisor is zero. -/
def InDomain {k : WrapperType} : OperatorTree k → Prop
  | @operand k ref => k = .bool → env ref = 0 ∨ env ref = 1
  | int64 op a b => a.InDomain ∧ b.InDomain ∧ (op.isDivision = true → b.eval env ≠ 0)
  | compare _ a b => a.InDomain ∧ b.InDomain
  | uint64 _ a b => a.InDomain ∧ b.InDomain
  | rotateRight a _ => a.InDomain
  | equal a b => a.InDomain ∧ b.InDomain
  | logic _ a b => a.InDomain ∧ b.InDomain
  | lnot a => a.InDomain
  | offset base _ => base.InDomain

/-- What the machine of a host gives for a tree. -/
def evalOn (arch : Arch) {k : WrapperType} : OperatorTree k → Word
  | operand ref => env ref
  | int64 op a b => arch.emitted.binary op.opcode (a.evalOn arch) (b.evalOn arch)
  | compare op a b => arch.emitted.binary op.opcode (a.evalOn arch) (b.evalOn arch)
  | uint64 op a b => arch.emitted.binary op.opcode (a.evalOn arch) (b.evalOn arch)
  | rotateRight a bits => arch.rotateRight bits (a.evalOn arch)
  | equal a b => arch.emitted.binary .cmpEq (a.evalOn arch) (b.evalOn arch)
  | logic op a b => arch.emitted.binary op.opcode (a.evalOn arch) (b.evalOn arch)
  | lnot a => a.evalOn arch ^^^ 1
  | offset base byteOffset => base.evalOn arch + (byteOffset.truncate 32).signExtend 64

end

/-- There is a `/` or a `%` in the tree. -/
def divides {k : WrapperType} : OperatorTree k → Bool
  | operand _ => false
  | int64 op a b => a.divides || b.divides || op.isDivision
  | compare _ a b => a.divides || b.divides
  | uint64 _ a b => a.divides || b.divides
  | rotateRight a _ => a.divides
  | equal a b => a.divides || b.divides
  | logic _ a b => a.divides || b.divides
  | lnot a => a.divides
  | offset base _ => base.divides

/-- The part of a pointer's offsets that is lost when each is cut to 32 bits. -/
def lost {k : WrapperType} : OperatorTree k → Word
  | offset base byteOffset => base.lost + (byteOffset - (byteOffset.truncate 32).signExtend 64)
  | _ => 0

/-- The host has instructions for the counts and the offsets in the tree. -/
def encodes (host : Host) {k : WrapperType} : OperatorTree k → Bool
  | operand _ => true
  | int64 _ a b => a.encodes host && b.encodes host
  | compare _ a b => a.encodes host && b.encodes host
  | uint64 _ a b => a.encodes host && b.encodes host
  | rotateRight a bits => a.encodes host && host.encodes (.rotateRight .null bits)
  | equal a b => a.encodes host && b.encodes host
  | logic _ a b => a.encodes host && b.encodes host
  | lnot a => a.encodes host
  | offset base byteOffset =>
    base.encodes host && (byteOffset == 0 || host.encodes (.gep .null byteOffset))

/-- A value of the program that is not a constant. -/
def RunTime (p : IRProgram) (x : IRValueRef) : Prop := Proofs.Known p x ∧ p.constIntValue x = none

/-- On the host, the code of the tree gives its meaning, and every instruction of the tree writes
its register. -/
structure Compiles (host : Host) (p : IRProgram) {k : WrapperType} (T : OperatorTree k) : Prop where
  value : ∀ s : HostState, let env := s.values (p.translatorSince (T.generate p).2)
    T.InDomain env → ∃ s', host.run (p.codeSince (T.generate p).2) s = some s' ∧
      s'.values (T.generate p).2.translatorNow (T.generate p).1 = T.eval env
  written : ∀ r ∈ p.addedSince (T.generate p).2, ∃ v ∈ p.codeSince (T.generate p).2,
    v.writes = some (.result r)

end OperatorTree

namespace Proofs

open OperatorTree Translator

section

variable {k : WrapperType} {host : Host} {env env' : IRValueRef → Word} {arch : Arch}

/-! ### The meaning and the machines -/

lemma lost_eq_zero (T : OperatorTree k) (hk : k ≠ .bytePtr) : T.lost = 0 := by
  cases T with
  | offset base byteOffset => exact absurd rfl hk
  | _ => rfl

lemma wordOfBool_cases (c : Bool) : IRProgram.wordOfBool c = 0 ∨ IRProgram.wordOfBool c = 1 := by
  cases c
  · exact .inl rfl
  · exact .inr rfl

lemma eval_truth (T : OperatorTree .bool) (h : T.InDomain env) :
    T.eval env = 0 ∨ T.eval env = 1 := by
  cases T with
  | operand ref => exact h rfl
  | compare op a b => exact wordOfBool_cases _
  | equal a b => exact wordOfBool_cases _
  | logic op a b => exact wordOfBool_cases _
  | lnot a => exact wordOfBool_cases _

lemma evalOn_congr (T : OperatorTree k) (h : ∀ x ∈ T.operands, env x = env' x) :
    T.evalOn env arch = T.evalOn env' arch := by
  induction T with
  | operand ref => exact h ref List.mem_cons_self
  | int64 op a b iha ihb | compare op a b iha ihb | uint64 op a b iha ihb | logic op a b iha ihb
  | equal a b iha ihb =>
    rw [evalOn, evalOn, iha fun x hx => h x (List.mem_append_left _ hx),
      ihb fun x hx => h x (List.mem_append_right _ hx)]
  | rotateRight a bits ih => rw [evalOn, evalOn, ih h]
  | lnot a ih => rw [evalOn, evalOn, ih h]
  | offset base byteOffset ih => rw [evalOn, evalOn, ih h]

lemma int64_binary (op : Int64.Op) (a b : Word) :
    host.arch.emitted.binary op.opcode a b = op.eval a b := by
  cases op <;> rfl

lemma compare_binary (op : Int64.Comparison) (a b : Word) :
    host.arch.emitted.binary op.opcode a b = IRProgram.wordOfBool (op.eval a b) := by
  cases op <;> rfl

lemma uint64_binary (op : UInt64.Op) (a b : Word) :
    host.arch.emitted.binary op.opcode a b = op.eval a b := by
  cases op with
  | crc32 => cases host <;> rfl
  | _ => rfl

/-- The bitwise instructions are right on truth values. -/
lemma logic_binary (op : Bool.Op) {a b : Word} (ha : a = 0 ∨ a = 1) (hb : b = 0 ∨ b = 1) :
    host.arch.emitted.binary op.opcode a b = IRProgram.wordOfBool (op.eval (a != 0) (b != 0)) := by
  rcases ha with rfl | rfl <;> rcases hb with rfl | rfl <;> cases op <;> rfl

lemma lnot_unary {a : Word} (ha : a = 0 ∨ a = 1) : a ^^^ 1 = IRProgram.wordOfBool (!(a != 0)) := by
  rcases ha with rfl | rfl <;> rfl

lemma rotateRight_arch (bits : Nat) (a : Word) : host.arch.rotateRight bits a = a.rotateRight bits := by
  cases host <;> rfl

/-- The machine of a host gives the meaning less the lost offsets. -/
theorem evalOn_add_lost (T : OperatorTree k) (h : T.InDomain env) :
    T.evalOn env host.arch + T.lost = T.eval env := by
  have hexact : ∀ {k : WrapperType} {T : OperatorTree k}, k ≠ .bytePtr →
      T.evalOn env host.arch + T.lost = T.eval env → T.evalOn env host.arch = T.eval env := by
    intro k T hk heq
    rwa [lost_eq_zero T hk, add_zero] at heq
  induction T with
  | operand ref => exact add_zero _
  | int64 op a b iha ihb =>
    rw [lost_eq_zero _ (by decide), add_zero, evalOn, hexact (by decide) (iha h.1), hexact (by decide) (ihb h.2.1),
      int64_binary]
    rfl
  | compare op a b iha ihb =>
    rw [lost_eq_zero _ (by decide), add_zero, evalOn, hexact (by decide) (iha h.1), hexact (by decide) (ihb h.2),
      compare_binary]
    rfl
  | uint64 op a b iha ihb =>
    rw [lost_eq_zero _ (by decide), add_zero, evalOn, hexact (by decide) (iha h.1), hexact (by decide) (ihb h.2),
      uint64_binary]
    rfl
  | rotateRight a bits ih =>
    rw [lost_eq_zero _ (by decide), add_zero, evalOn, hexact (by decide) (ih h), rotateRight_arch]
    rfl
  | equal a b iha ihb =>
    rw [lost_eq_zero _ (by decide), add_zero, evalOn, hexact (by decide) (iha h.1), hexact (by decide) (ihb h.2)]
    rfl
  | logic op a b iha ihb =>
    rw [lost_eq_zero _ (by decide), add_zero, evalOn, hexact (by decide) (iha h.1), hexact (by decide) (ihb h.2),
      logic_binary op (eval_truth a h.1) (eval_truth b h.2)]
    rfl
  | lnot a ih =>
    rw [lost_eq_zero _ (by decide), add_zero, evalOn, hexact (by decide) (ih h), lnot_unary (eval_truth a h)]
    rfl
  | offset base byteOffset ih =>
    rw [lost, evalOn, eval, ← ih h]
    generalize (byteOffset.truncate 32).signExtend 64 = added
    rw [add_add_add_comm, add_sub_cancel]

/-! ### Generating a tree -/

/-- What generating a tree adds to a program: `value` is what the machine of the host leaves in
`ref`. -/
structure Generated (host : Host) (value : (IRValueRef → Word) → Word) (divides encodes : Bool)
    (p q : IRProgram) (ref : IRValueRef) (refs : List Nat) : Prop where
  appends : Appends (fun i => i.isOperator = true) p q refs
  known : Known q ref
  runTime : q.constIntValue ref = none
  line : (∀ r ∈ refs, ∀ i, q.instrAt r = some i → i.isLine = true) ↔ divides = false
  encodes : host.EncodesLine q refs ↔ encodes = true
  value : divides = false → ∀ e, ∃ e', q.execLine host.arch.emitted refs e = some e' ∧
    e'.regs ref = value e.regs

variable {p p₁ p₂ q : IRProgram} {ref ra rb : IRValueRef} {refs refs₁ refs₂ : List Nat} {i : Instr}
  {va vb : (IRValueRef → Word) → Word} {da db ea eb : Bool}

lemma generated_operand (hp : BlockOpen p) (hknown : Known p ref)
    (hrun : p.constIntValue ref = none) (host : Host) :
    Generated host (fun env => env ref) false true p p ref [] where
  appends := hp.appends
  known := hknown
  runTime := hrun
  line := ⟨fun _ => rfl, fun _ _ hr => (List.not_mem_nil hr).elim⟩
  encodes := ⟨fun _ => rfl, fun _ _ hr => (List.not_mem_nil hr).elim⟩
  value _ e := ⟨e, rfl, rfl⟩

/-- One operand more, which has nothing to do with the first. -/
lemma Generated.pair (ha : Generated host va da ea p p₁ ra refs₁)
    (hb : Generated host vb db eb p₁ p₂ rb refs₂)
    (hcongr : ∀ env env', (∀ x, Known p x → env x = env' x) → vb env = vb env') :
    Appends (fun i => i.isOperator = true) p p₂ (refs₁ ++ refs₂) ∧ Known p₂ ra ∧ p₂.constIntValue ra = none ∧
    ((∀ r ∈ refs₁ ++ refs₂, ∀ i, p₂.instrAt r = some i → i.isLine = true) ↔ (da || db) = false) ∧
    (host.EncodesLine p₂ (refs₁ ++ refs₂) ↔ (ea && eb) = true) ∧
    ((da || db) = false → ∀ e, ∃ e', p₂.execLine host.arch.emitted (refs₁ ++ refs₂) e = some e' ∧
      e'.regs ra = va e.regs ∧ e'.regs rb = vb e.regs) := by
  have hrefs : ∀ r ∈ refs₁, r < p₁.dataSize := fun r hr => (ha.appends.range r hr).2
  refine ⟨ha.appends.trans hb.appends, hb.appends.known ha.known,
    (hb.appends.constIntValue ha.known).trans ha.runTime, ?_, ?_, ?_⟩
  · rw [hb.appends.forall_append hrefs, ha.line, hb.line, Bool.or_eq_false_iff]
  · unfold Host.EncodesLine
    rw [hb.appends.forall_append hrefs, Bool.and_eq_true, ← ha.encodes, ← hb.encodes]
    rfl
  · intro hd e
    obtain ⟨hda, hdb⟩ := Bool.or_eq_false_iff.mp hd
    obtain ⟨e₁, he₁, hra⟩ := ha.value hda e
    obtain ⟨e₂, he₂, hrb⟩ := hb.value hdb e₁
    refine ⟨e₂, ?_, ?_, ?_⟩
    · rw [execLine_append, hb.appends.execLine hrefs, he₁, Option.bind_some, he₂]
    · rw [hb.appends.regs he₂ ha.known, hra]
    · rw [hrb]
      exact hcongr _ _ fun x hx => ha.appends.regs he₁ hx

/-- The record of the operator. -/
lemma Appends.operator {value : (IRValueRef → Word) → Word}
    (h : Appends (fun i => i.isOperator = true) p q refs) (hi : i.isOperator = true) (huses : ∀ x ∈ i.uses, Known q x)
    (hline : (∀ r ∈ refs, ∀ i, q.instrAt r = some i → i.isLine = true) ↔ da = false)
    (hencodes : host.EncodesLine q refs ↔ ea = true)
    (hvalue : (da || !i.isLine) = false → ∀ e, ∃ e', q.execLine host.arch.emitted refs e = some e' ∧
      execInstr host.arch.emitted q.dataSize i e' = some (e'.setReg q.dataSize (value e.regs))) :
    Generated host value (da || !i.isLine) (ea && host.encodes i) p (q.emit i).2 (.instr q.dataSize)
      (refs ++ [q.dataSize]) := by
  have hemit := @BlockOpen.emit (fun i => i.isOperator = true) q i h.blockOpen hi huses
  have hself := emit_self (p := q) i
  have hrefs : ∀ r ∈ refs, r < q.dataSize := fun r hr => (h.range r hr).2
  have hone : ∀ G : Instr → Prop, (∀ r ∈ [q.dataSize], ∀ j, (q.emit i).2.instrAt r = some j → G j) ↔
      G i := by
    intro G
    constructor
    · exact fun hall => hall _ List.mem_cons_self i hself
    · intro hg r hr j hj
      rw [List.mem_singleton.mp hr, hself] at hj
      cases hj
      exact hg
  constructor
  · exact h.trans hemit
  · exact (hemit.range _ List.mem_cons_self).2
  · exact emit_runTime (by cases i <;> first | rfl | cases hi)
  · rw [hemit.forall_append hrefs, hline, hone, Bool.or_eq_false_iff, Bool.not_eq_false']
  · unfold Host.EncodesLine
    rw [hemit.forall_append hrefs, hone, Bool.and_eq_true, ← hencodes]
    rfl
  · intro hd e
    obtain ⟨e', he', hexec⟩ := hvalue hd e
    refine ⟨e'.setReg q.dataSize (value e.regs), ?_, Function.update_self ..⟩
    rw [execLine_append, hemit.execLine hrefs, he', Option.bind_some, execLine_singleton hself, hexec]

/-- An operator with two operands. -/
lemma Generated.binary (ha : Generated host va da ea p p₁ ra refs₁)
    (hb : Generated host vb db eb p₁ p₂ rb refs₂)
    (hcongr : ∀ env env', (∀ x, Known p x → env x = env' x) → vb env = vb env') (op : Opcode)
    (t : IRType) (hop : op.isBinary = true) (hstore : op ≠ .store)
    (d : Bool)
    (hd : (Instr.binary op t ra rb).isLine = !d) :
    Generated host (fun env => host.arch.emitted.binary op (va env) (vb env)) (da || db || d)
      (ea && eb) p (p₂.addBinary op t ra rb).2 (p₂.addBinary op t ra rb).1
      (refs₁ ++ refs₂ ++ [p₂.dataSize]) := by
  obtain ⟨happends, hknown, hrun, hline, hencodes, hvalue⟩ := ha.pair hb hcongr
  rw [addBinary_runTime (.inl hrun), ← Bool.and_true (ea && eb), ← Bool.not_not d, ← hd]
  refine happends.operator (i := .binary op t ra rb) ?_ ?_ hline hencodes fun hd e => ?_
  · simp only [Instr.isOperator, hop, Bool.true_and, bne_iff_ne]
    exact hstore
  · have huses : (Instr.binary op t ra rb).uses = [ra, rb] := by
      have hunary : op.isUnary = false := by cases op <;> first | rfl | cases hop
      have hfits : (Instr.binary op t ra rb).Fits := by
        change (op.isBinary || op.isUnary) = true
        rw [hop, Bool.true_or]
      rw [Instr.uses_eq_operands hfits, Instr.operands, hunary]
      rfl
    rw [huses]
    intro x hx
    rcases List.mem_cons.mp hx with rfl | hx
    · exact hknown
    · rw [List.mem_singleton.mp hx]
      exact hb.known
  · obtain ⟨e', he', hra, hrb⟩ := hvalue (Bool.or_eq_false_iff.mp hd).1 e
    refine ⟨e', he', ?_⟩
    rw [execInstr, if_neg hstore, if_pos hop, hra, hrb]

/-- An operator with one operand. -/
lemma Generated.unary (ha : Generated host va da ea p q ra refs) (i : Instr)
    (f : Word → Word) (hi : i.isOperator = true) (hline : i.isLine = true)
    (huses : ∀ x ∈ i.uses, x = ra) (hexec : ∀ e, execInstr host.arch.emitted q.dataSize i e =
      some (e.setReg q.dataSize (f (e.regs ra)))) :
    Generated host (fun env => f (va env)) da (ea && host.encodes i) p (q.emit i).2
      (.instr q.dataSize) (refs ++ [q.dataSize]) := by
  have hflag : (da || !i.isLine) = da := by rw [hline, Bool.not_true, Bool.or_false]
  have hoperator := @Appends.operator host p q refs i da ea (fun env => f (va env)) ha.appends
    hi (fun x hx => huses x hx ▸ ha.known) ha.line ha.encodes fun hd e => by
      obtain ⟨e', he', hra⟩ := ha.value (hflag ▸ hd) e
      exact ⟨e', he', by rw [hexec, hra]⟩
  rwa [hflag] at hoperator

lemma Appends.runTime {G : Instr → Prop} {xs : List IRValueRef} (h : Appends G p q refs)
    (hxs : ∀ x ∈ xs, RunTime p x) : ∀ x ∈ xs, RunTime q x := by
  intro x hx
  obtain ⟨hknown, hrun⟩ := hxs x hx
  exact ⟨h.known hknown, (h.constIntValue hknown).trans hrun⟩

lemma evalOn_known {T : OperatorTree k} (hT : ∀ x ∈ T.operands, RunTime p x) :
    ∀ env env', (∀ x, Known p x → env x = env' x) → T.evalOn env arch = T.evalOn env' arch :=
  fun _ _ henv => evalOn_congr T fun x hx => henv x (hT x hx).1

section

variable {a b : OperatorTree k}
  (ha : ∃ refs, Generated host (fun env => a.evalOn env host.arch) a.divides (a.encodes host) p
    (a.generate p).2 (a.generate p).1 refs)
  (hb : ∀ {q : IRProgram}, BlockOpen q → (∀ x ∈ b.operands, RunTime q x) →
    ∃ refs, Generated host (fun env => b.evalOn env host.arch) b.divides (b.encodes host) q
      (b.generate q).2 (b.generate q).1 refs)
  (hright : ∀ x ∈ b.operands, RunTime p x) (op : Opcode) (t : IRType) (hop : op.isBinary = true)
  (hstore : op ≠ .store)

include ha hb hright hop hstore

/-- The trees of two operands, one after the other. -/
lemma generate_binary (d : Bool) (hd : ∀ ra rb, (Instr.binary op t ra rb).isLine = !d) :
    let q := (a.generate p).2
    ∃ refs, Generated host
      (fun env => host.arch.emitted.binary op (a.evalOn env host.arch) (b.evalOn env host.arch))
      (a.divides || b.divides || d) (a.encodes host && b.encodes host) p
      ((b.generate q).2.addBinary op t (a.generate p).1 (b.generate q).1).2
      ((b.generate q).2.addBinary op t (a.generate p).1 (b.generate q).1).1 refs := by
  intro q
  obtain ⟨refs₁, h₁⟩ := ha
  obtain ⟨refs₂, h₂⟩ := hb h₁.appends.blockOpen (h₁.appends.runTime hright)
  exact ⟨_, h₁.binary h₂ (evalOn_known hright) op t hop hstore d (hd _ _)⟩

/-- An operator for which the backend has an instruction. -/
lemma generate_line (hline : ∀ ra rb, (Instr.binary op t ra rb).isLine = true) :
    let q := (a.generate p).2
    ∃ refs, Generated host
      (fun env => host.arch.emitted.binary op (a.evalOn env host.arch) (b.evalOn env host.arch))
      (a.divides || b.divides) (a.encodes host && b.encodes host) p
      ((b.generate q).2.addBinary op t (a.generate p).1 (b.generate q).1).2
      ((b.generate q).2.addBinary op t (a.generate p).1 (b.generate q).1).1 refs := by
  have hboth := generate_binary ha hb hright op t hop hstore false hline
  rwa [Bool.or_false] at hboth

end

/-- A tree adds the records of its operators, and the machine of a host gives what it gives for the
tree. -/
theorem generate_generated (T : OperatorTree k) (host : Host) (hp : BlockOpen p)
    (hoperands : ∀ x ∈ T.operands, RunTime p x) :
    ∃ refs, Generated host (fun env => T.evalOn env host.arch) T.divides (T.encodes host) p
      (T.generate p).2 (T.generate p).1 refs := by
  induction T generalizing p with
  | operand ref =>
    obtain ⟨hknown, hrun⟩ := hoperands ref List.mem_cons_self
    exact ⟨[], generated_operand hp hknown hrun host⟩
  | int64 op a b iha ihb =>
    obtain ⟨hleft, hright⟩ := List.forall_mem_append.mp hoperands
    refine generate_binary (iha hp hleft) ihb hright op.opcode .int64 ?_ ?_ op.isDivision ?_
    · cases op <;> rfl
    · cases op <;> decide
    · intro ra rb
      cases op <;> rfl
  | compare op a b iha ihb =>
    obtain ⟨hleft, hright⟩ := List.forall_mem_append.mp hoperands
    exact generate_line (iha hp hleft) ihb hright op.opcode .bool (by cases op <;> rfl)
      (by cases op <;> decide) fun ra rb => by cases op <;> rfl
  | uint64 op a b iha ihb =>
    obtain ⟨hleft, hright⟩ := List.forall_mem_append.mp hoperands
    exact generate_line (iha hp hleft) ihb hright op.opcode .uint64 (by cases op <;> rfl)
      (by cases op <;> decide) fun ra rb => by cases op <;> rfl
  | equal a b iha ihb =>
    obtain ⟨hleft, hright⟩ := List.forall_mem_append.mp hoperands
    exact generate_line (iha hp hleft) ihb hright .cmpEq .bool rfl (by decide) fun _ _ => rfl
  | logic op a b iha ihb =>
    obtain ⟨hleft, hright⟩ := List.forall_mem_append.mp hoperands
    exact generate_line (iha hp hleft) ihb hright op.opcode .bool (by cases op <;> rfl)
      (by cases op <;> decide) fun ra rb => by cases op <;> rfl
  | rotateRight a bits ih =>
    obtain ⟨refs, h⟩ := ih hp hoperands
    exact ⟨_, h.unary (.rotateRight (a.generate p).1 bits) (host.arch.rotateRight bits) rfl rfl
      (fun x hx => List.mem_singleton.mp hx) fun e => rfl⟩
  | lnot a ih =>
    obtain ⟨refs, h⟩ := ih hp hoperands
    have hnode := h.unary (.unary .lNot .bool (a.generate p).1) (· ^^^ 1) rfl rfl
      (fun x hx => List.mem_singleton.mp hx) fun e => rfl
    rw [show host.encodes (.unary .lNot .bool (a.generate p).1) = true from rfl,
      Bool.and_true] at hnode
    exact ⟨_, hnode⟩
  | offset base byteOffset ih =>
    obtain ⟨refs, h⟩ := ih hp hoperands
    by_cases hzero : byteOffset = 0
    · subst hzero
      refine ⟨refs, h.appends, h.known, h.runTime, h.line, ?_, fun hd e => ?_⟩
      · rw [OperatorTree.encodes, beq_self_eq_true, Bool.true_or, Bool.and_true]
        exact h.encodes
      · obtain ⟨e', he', hvalue⟩ := h.value hd e
        exact ⟨e', he', hvalue.trans (BitVec.add_zero _).symm⟩
    · have hnode := h.unary (.gep (base.generate p).1 byteOffset)
        (· + (byteOffset.truncate 32).signExtend 64) rfl rfl
        (fun x hx => List.mem_singleton.mp hx) fun e => rfl
      have hgep : (offset base byteOffset).generate p =
          (base.generate p).2.emit (.gep (base.generate p).1 byteOffset) := if_neg hzero
      rw [hgep]
      refine ⟨_, hnode.appends, hnode.known, hnode.runTime, hnode.line, ?_, hnode.value⟩
      rw [OperatorTree.encodes, beq_false_of_ne hzero, Bool.false_or]
      exact hnode.encodes

/-! ### The registers that are written -/

section

variable {P : IRProgram} {fn : IRFunction} {W : Nat → Prop} {t : Translator} {defer : Nat → Nat → Bool}
  {blk r : Nat} {v : VInstr}

lemma isOperator_plain (h : i.isOperator = true) : i.isTerminator = false ∧ i.isConst = false := by
  cases i <;> first | exact ⟨rfl, rfl⟩ | cases h

lemma lowerInstr_operator {reg : IRValueRef → VReg} (h : i.isOperator = true) :
    if i.isLine then ∃ v ∈ lowerInstr P reg r i, v.writes = some (.result r)
    else lowerInstr P reg r i = [] := by
  cases i with
  | binary op t a b =>
    cases op <;> first | exact ⟨_, List.mem_singleton_self _, rfl⟩ | rfl | cases h
  | unary op t a => cases op <;> first | exact ⟨_, List.mem_singleton_self _, rfl⟩ | cases h
  | rotateRight a shift => exact ⟨_, List.mem_singleton_self _, rfl⟩
  | gep base byteOffset => exact ⟨_, List.mem_singleton_self _, rfl⟩
  | _ => cases h

/-- The code of the operators is the code of one after the other. -/
lemma translateInstrs_operators (hrefs : ∀ r ∈ refs, ∃ i, P.instrAt r = some i ∧ i.isOperator = true)
    (hdefer : ∀ r ∈ refs, defer r blk = false) (ht : Tracks P fn W t) :
    (∀ v ∈ (translateInstrs P fn defer blk refs t).1, ∃ r ∈ refs, ∃ i reg,
      P.instrAt r = some i ∧ v ∈ lowerInstr P reg r i) ∧
    ∀ r ∈ refs, ∀ i, P.instrAt r = some i → ∃ reg, ∀ v ∈ lowerInstr P reg r i,
      v ∈ (translateInstrs P fn defer blk refs t).1 := by
  induction refs generalizing t W with
  | nil => exact ⟨fun v hv => (List.not_mem_nil hv).elim, fun r hr => (List.not_mem_nil hr).elim⟩
  | cons r rest ih =>
    obtain ⟨i, hi, hop⟩ := hrefs r List.mem_cons_self
    obtain ⟨hterm, hconst⟩ := isOperator_plain hop
    obtain ⟨hfrom, hall⟩ := ih (fun r' hr' => hrefs r' (List.mem_cons_of_mem r hr'))
      (fun r' hr' => hdefer r' (List.mem_cons_of_mem r hr')) (ht.after hi)
    have hcode : (translateInstrs P fn defer blk (r :: rest) t).1 = lowerInstr P t.regOf r i ++
        (translateInstrs P fn defer blk rest (after P t r i)).1 := by
      rw [translateInstrs, translateInstr_eq ht.toPhisMapped hi hterm hconst
        fun _ => hdefer r List.mem_cons_self]
    rw [hcode]
    constructor
    · intro v hv
      rcases List.mem_append.mp hv with hv | hv
      · exact ⟨r, List.mem_cons_self, i, t.regOf, hi, hv⟩
      · obtain ⟨r', hr', hrest⟩ := hfrom v hv
        exact ⟨r', List.mem_cons_of_mem r hr', hrest⟩
    · intro r' hr' i' hi'
      rcases List.mem_cons.mp hr' with rfl | hr'
      · rw [hi] at hi'
        cases hi'
        exact ⟨t.regOf, fun v hv => List.mem_append_left _ hv⟩
      · obtain ⟨reg, hreg⟩ := hall r' hr' i' hi'
        exact ⟨reg, fun v hv => List.mem_append_right _ (hreg v hv)⟩

end

/-- Every operator writes its register exactly if there is no division. -/
lemma Generated.written_iff (h : Generated host va da ea p q ref refs) :
    (∀ r ∈ p.addedSince q, ∃ v ∈ p.codeSince q, v.writes = some (.result r)) ↔ da = false := by
  have hrefs : ∀ r ∈ refs, ∃ i, q.instrAt r = some i ∧ i.isOperator = true := by
    intro r hr
    obtain ⟨i, hi, hop, -⟩ := h.appends.records r hr
    exact ⟨i, hi, hop⟩
  have hbranch : ∀ r ∈ refs, ∀ x b b', q.instrAt r ≠ some (.condBranch x b b') := by
    intro r hr x b b' hi
    cases h.appends.spec hr hi
  obtain ⟨W, hW⟩ := @translatorAt_tracks q q.currentFn q.currentBlkIdx (p.blockAt p.currentBlkIdx)
  obtain ⟨hfrom, hall⟩ := translateInstrs_operators hrefs
    (fun r hr => canDeferComparison_false h.appends.instructionsAt hr hbranch r) hW
  rw [IRProgram.codeSince, h.appends.addedSince, ← h.line]
  constructor
  · intro hwritten r hr i hi
    obtain ⟨v, hv, hwrites⟩ := hwritten r hr
    obtain ⟨r', hr', i', reg, hi', hv'⟩ := hfrom v hv
    have hop := h.appends.spec hr' hi'
    -- the code of another instruction writes the register of that instruction
    have hself : r = r' := by
      rcases (lowerInstr_shape hv').2.2 _ hwrites with heq | ⟨k, heq⟩
      · cases heq
        rfl
      · cases heq
    subst hself
    rw [hi] at hi'
    cases hi'
    have hlower := @lowerInstr_operator i q r reg hop
    by_contra hline
    rw [if_neg hline] at hlower
    rw [hlower] at hv'
    exact List.not_mem_nil hv'
  · intro hline r hr
    obtain ⟨i, hi, hop⟩ := hrefs r hr
    obtain ⟨reg, hreg⟩ := hall r hr i hi
    have hlower := @lowerInstr_operator i q r reg hop
    rw [if_pos (hline r hr i hi)] at hlower
    obtain ⟨v, hv, hwrites⟩ := hlower
    exact ⟨v, hreg v hv, hwrites⟩

/-! ### The result -/

lemma inDomain_zero (T : OperatorTree k) (hdiv : T.divides = false) : T.InDomain fun _ => 0 := by
  induction T with
  | operand ref => exact fun _ => .inl rfl
  | int64 op a b iha ihb =>
    obtain ⟨hab, hop⟩ := Bool.or_eq_false_iff.mp hdiv
    obtain ⟨ha, hb⟩ := Bool.or_eq_false_iff.mp hab
    refine ⟨iha ha, ihb hb, fun hno => ?_⟩
    rw [hop] at hno
    cases hno
  | compare op a b iha ihb | uint64 op a b iha ihb | logic op a b iha ihb | equal a b iha ihb =>
    obtain ⟨ha, hb⟩ := Bool.or_eq_false_iff.mp hdiv
    exact ⟨iha ha, ihb hb⟩
  | rotateRight a bits ih => exact ih hdiv
  | lnot a ih => exact ih hdiv
  | offset base byteOffset ih => exact ih hdiv

/-- The code of a tree that a host has instructions for gives the meaning less the lost offsets. -/
lemma Generated.run {T : OperatorTree k}
    (h : Generated host (fun env => T.evalOn env host.arch) T.divides (T.encodes host) p q ref refs)
    (hdiv : T.divides = false) (s : HostState)
    (hs : T.InDomain (s.values (p.translatorSince q))) :
    (T.encodes host = true → ∃ s', host.run (p.codeSince q) s = some s' ∧
      s'.values q.translatorNow ref + T.lost = T.eval (s.values (p.translatorSince q))) ∧
    (T.encodes host = false → host.run (p.codeSince q) s = none) := by
  have hline := h.line.mpr hdiv
  have happends : Appends (fun i => i.isLine = true) p q refs :=
    h.appends.mono fun r hr i hi _ => hline r hr i hi
  have hconst := h.appends.noConst fun i hop => (isOperator_plain hop).2
  obtain ⟨hyes, hno⟩ := happends.run hconst host s
  constructor
  · intro henc
    obtain ⟨s', e', hs', he', hregs, -⟩ := hyes (h.encodes.mpr henc)
    obtain ⟨e'', he'', hvalue⟩ := h.value hdiv ⟨s.values (p.translatorSince q), s.mem, []⟩
    rw [he'] at he''
    cases he''
    refine ⟨s', hs', ?_⟩
    rw [hregs, hvalue]
    exact evalOn_add_lost T hs
  · intro henc
    apply hno
    rw [h.encodes, henc]
    exact Bool.false_ne_true

/-- On a host, the code of a tree gives its meaning exactly if nothing is divided, no part of a
pointer's offsets is lost and the host has instructions for the counts and the offsets. -/
theorem operatorTree_computes_iff {calls : List BuilderCall}
    (hbuild : BuilderCall.build calls = some p) (hpoint : p.HasInsertionPoint) (T : OperatorTree k)
    (hoperands : ∀ x ∈ T.operands, RunTime p x) (host : Host) :
    Compiles host p T ↔ T.divides = false ∧ T.lost = 0 ∧ T.encodes host = true := by
  have hopen : BlockOpen p := ⟨hpoint, (build_cacheFaithful hbuild).offsets⟩
  obtain ⟨refs, h⟩ := generate_generated T host hopen hoperands
  constructor
  · rintro ⟨hvalue, hwritten⟩
    have hdiv := h.written_iff.mp hwritten
    obtain ⟨hyes, hno⟩ := h.run hdiv ⟨fun _ => 0, fun _ => 0, (0, 0)⟩ (inDomain_zero T hdiv)
    obtain ⟨s', hs', heval⟩ := hvalue ⟨fun _ => 0, fun _ => 0, (0, 0)⟩ (inDomain_zero T hdiv)
    cases henc : T.encodes host with
    | false =>
      rw [hno henc] at hs'
      cases hs'
    | true =>
      obtain ⟨s'', hs'', hlost⟩ := hyes henc
      rw [hs'] at hs''
      cases hs''
      rw [heval] at hlost
      exact ⟨hdiv, add_eq_left.mp hlost, rfl⟩
  · rintro ⟨hdiv, hlost, henc⟩
    refine ⟨fun s hs => ?_, h.written_iff.mpr hdiv⟩
    obtain ⟨s', hs', heval⟩ := (h.run hdiv s hs).1 henc
    rw [hlost, add_zero] at heval
    exact ⟨s', hs', heval⟩

/-- A function of two numbers. -/
def operandCalls : List BuilderCall := [.beginFunction "f" .int64 [("a", .int64), ("b", .int64)]]

/-- `a + a * b` -/
def sumTree : OperatorTree .int64 :=
  .int64 .add (.operand (.param 0 0))
    (.int64 .mul (.operand (.param 0 0)) (.operand (.param 0 1)))

/-- `a / b` -/
def quotientTree : OperatorTree .int64 :=
  .int64 .div (.operand (.param 0 0)) (.operand (.param 0 1))

theorem operatorTree_computes_iff_sum : ∃ p, BuilderCall.build operandCalls = some p ∧
    Compiles .arm64 p sumTree := by
  have hbuild : BuilderCall.build operandCalls = some
      ((BuilderCall.build operandCalls).get (by decide)) := (Option.some_get _).symm
  refine ⟨_, hbuild, (operatorTree_computes_iff hbuild (by decide) sumTree ?_ .arm64).mpr
    ⟨rfl, rfl, rfl⟩⟩
  intro x hx
  simp only [sumTree, operands, List.cons_append, List.nil_append, List.mem_cons,
    List.not_mem_nil, or_false] at hx
  rcases hx with rfl | rfl | rfl <;> exact ⟨trivial, rfl⟩

/-- A quotient is read from a register that no code writes. -/
theorem operatorTree_unwritten : ¬ ∀ calls p, BuilderCall.build calls = some p → p.HasInsertionPoint →
    ∀ k (T : OperatorTree k), (∀ x ∈ T.operands, RunTime p x) → ∀ host, Compiles host p T := by
  intro h
  have hbuild : BuilderCall.build operandCalls = some
      ((BuilderCall.build operandCalls).get (by decide)) := (Option.some_get _).symm
  have hbad := (h _ _ hbuild (by decide) _ quotientTree (by
    intro x hx
    simp only [quotientTree, operands, List.cons_append, List.nil_append, List.mem_cons,
      List.not_mem_nil, or_false] at hx
    rcases hx with rfl | rfl <;> exact ⟨trivial, rfl⟩) .x86).written 0 (by decide)
  revert hbad
  decide

end

end Proofs

end TidyTuples
