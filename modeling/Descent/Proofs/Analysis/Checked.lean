import Descent.Proofs.Analysis.Result

/-!
# Every look-up of an analysis finds something

The analysis refers to symbols by position. It reads symbols and changes them,
and it goes from a place to the right side there and from a symbol to its users.
Its functions make do with what a look-up yields, whether it finds something or
not. The functions here do the same work but give up at the first look-up that
finds nothing. They never give up (`Checked.analysis_eq_some`): every position
at hand is that of a token in a right side or of the owner of a production, and
the outline of the table never changes.
-/

namespace Descent

namespace Grammar

variable {g : Grammar}

/-- The right sides, by the position of the owner and the index there. -/
def rules (g : Grammar) : List (List (List Token)) :=
  g.symbols.values.map fun symbol =>
    symbol.expansions.map fun expansion => expansion.filterMap g.resolve

theorem getElem?_rules {n : Nat} :
    g.rules[n]? = (Analysis.symbolAt? g.symbols n).map fun symbol =>
      symbol.expansions.map fun expansion => expansion.filterMap g.resolve := by
  rw [rules, Table.values, List.getElem?_map, List.getElem?_map]
  rfl

theorem mem_productionList_iff_rules {p : Production} : p ∈ g.productionList ↔
    ∃ rights, g.rules[p.owner]? = some rights ∧ rights[p.index]? = some p.right := by
  rw [mem_productionList, getElem?_rules]
  constructor
  · rintro ⟨symbol, hat, expansion, hexp, hright⟩
    refine ⟨_, congrArg (Option.map _) hat, ?_⟩
    rw [List.getElem?_map, hexp, Option.map_some, hright]
  · rintro ⟨rights, hrights, hright⟩
    obtain ⟨symbol, hat, rfl⟩ := Option.map_eq_some_iff.mp hrights
    rw [List.getElem?_map] at hright
    obtain ⟨expansion, hexp, hright⟩ := Option.map_eq_some_iff.mp hright
    exact ⟨symbol, hat, expansion, hexp, hright⟩

end Grammar

namespace Analysis

namespace Checked

/-! ## The index of users -/

def addToIndex (p : Production) (index : List (List Production)) :
    Option (List (List Production)) :=
  p.mentioned.foldlM (fun index n =>
    if n < index.length then some (index.modify n (p :: ·)) else none) index

def productions (symbolCount : Nat) : List Production → Option Productions
  | [] => some ⟨[], List.replicate symbolCount []⟩
  | p :: rest => do
    let later ← productions symbolCount rest
    return ⟨p :: later.all, ← addToIndex p later.userIndex⟩

/-! ## Nullability and FIRST -/

def changeAt (symbols : SymbolTable) (n : Nat)
    (change : Symbol → Symbol × Bool) : Option (SymbolTable × Bool) :=
  if n < symbols.size then some (Analysis.changeAt symbols n change) else none

def seed : List Production → SymbolTable → Option SymbolTable
  | [], symbols => some symbols
  | p :: rest, symbols =>
    match p.right with
    | .terminal id :: _ => do
      let changed ← changeAt symbols p.owner fun symbol => symbol.insertFirst id
      seed rest changed.1
    | _ => seed rest symbols

/-- A scan looks up one symbol after the other, up to the first that is not
nullable. -/
def sequenceFirst (mode : Mode) (symbols : SymbolTable) :
    List Token → Option TerminalSet
  | [] => some ∅
  | .terminal id :: _ => some (terminalFirst mode id)
  | .nonterminal n :: rest => do
    let symbol ← symbolAt? symbols n
    if symbol.nullable then
      return symbol.first ∪ (← sequenceFirst mode symbols rest)
    else
      return symbol.first

def sequenceNullable (symbols : SymbolTable) : List Token → Option Bool
  | [] => some true
  | .terminal _ :: _ => some false
  | .nonterminal n :: rest => do
    let symbol ← symbolAt? symbols n
    if symbol.nullable then sequenceNullable symbols rest else return false

def updateFirst (mode : Mode) (symbols : SymbolTable) (owner : Nat)
    (right : List Token) : Option (SymbolTable × Bool) := do
  let first ← sequenceFirst mode symbols right
  let nullable ← sequenceNullable symbols right
  changeAt symbols owner (absorb first nullable)

/-- Takes the next production, as far as its place; its right side is looked up
among the rules. -/
def step (mode : Mode) (rules : List (List (List Token))) (ps : Productions)
    (w : Worklist) (p : Production) (pending : Queue Production) :
    Option Worklist := do
  let rights ← rules[p.owner]?
  let right ← rights[p.index]?
  let updated ← updateFirst mode w.symbols p.owner right
  if updated.2 then
    let users ← ps.userIndex[p.owner]?
    return ⟨pending.pushAll users, updated.1, w.steps + 1⟩
  else
    return ⟨pending, updated.1, w.steps + 1⟩

def run (mode : Mode) (rules : List (List (List Token))) (ps : Productions) :
    Nat → Worklist → Option Worklist
  | 0, w => some w
  | budget + 1, w =>
    match w.pending.pop? with
    | none => some w
    | some (p, pending) => do run mode rules ps budget (← step mode rules ps w p pending)

/-! ## FOLLOW -/

def followOf (symbols : SymbolTable) (owner : Nat) (rest : List Token) :
    Option TerminalSet := do
  let first ← sequenceFirst .follow symbols rest
  let nullable ← sequenceNullable symbols rest
  if nullable then
    let symbol ← symbolAt? symbols owner
    return first ∪ symbol.follow
  else
    return first

def updateFollow (owner : Nat) :
    SymbolTable → List Token → Option (SymbolTable × Bool)
  | symbols, [] => some (symbols, false)
  | symbols, .terminal _ :: rest => updateFollow owner symbols rest
  | symbols, .nonterminal n :: rest => do
    let set ← followOf symbols owner rest
    let here ← changeAt symbols n fun symbol => symbol.addFollow set
    let there ← updateFollow owner here.1 rest
    return (there.1, here.2 || there.2)

def followPass : List Production → SymbolTable → Option (SymbolTable × Bool)
  | [], symbols => some (symbols, false)
  | p :: rest, symbols => do
    let here ← updateFollow p.owner symbols p.right
    let there ← followPass rest here.1
    return (there.1, here.2 || there.2)

def followRun (ps : Productions) : Nat → SymbolTable → Option SymbolTable
  | 0, symbols => some symbols
  | budget + 1, symbols => do
    let pass ← followPass ps.all symbols
    if pass.2 then followRun ps budget pass.1 else return pass.1

/-! ## The whole analysis -/

/-- The symbols after an analysis in which every look-up has found something. -/
def analysis (mode : Mode) (g : Grammar) : Option SymbolTable := do
  let ps ← productions g.symbols.size g.productionList
  let seeded ← seed ps.all g.symbols
  let first ← run mode g.rules ps (firstBudget ps seeded)
    { pending := .ofList ps.all, symbols := seeded }
  match mode with
  | .firstOnly => return first.symbols
  | .follow => followRun ps (followBudget ps first.symbols) first.symbols

variable {g : Grammar} {mode : Mode} {symbols : SymbolTable} {p : Production}
  {tokens : List Token} {owner : Nat}

open Grammar

/-! ## The positions are in range -/

theorem changeAt_eq_some {n : Nat} {change : Symbol → Symbol × Bool}
    (hn : n < symbols.size) :
    changeAt symbols n change = some (Analysis.changeAt symbols n change) :=
  if_pos hn

theorem addToIndex_eq_some {index : List (List Production)}
    (hmen : ∀ n ∈ p.mentioned, n < index.length) :
    addToIndex p index = some (Productions.addToIndex p index) := by
  unfold addToIndex Productions.addToIndex
  generalize p.mentioned = positions at hmen
  induction positions generalizing index with
  | nil => rfl
  | cons n positions ih =>
      have hrest : ∀ m ∈ positions, m < (index.modify n (p :: ·)).length := by
        intro m hm
        rw [List.length_modify]
        exact hmen m (List.mem_cons_of_mem n hm)
      rw [List.foldlM_cons, if_pos (hmen n List.mem_cons_self), List.foldl_cons]
      exact ih hrest

theorem productions_eq_some {symbolCount : Nat} {all : List Production}
    (hmen : ∀ p ∈ all, ∀ n ∈ p.mentioned, n < symbolCount) :
    productions symbolCount all = some (.ofList symbolCount all) := by
  induction all with
  | nil => rfl
  | cons p all ih =>
      have hlength : (Productions.ofList symbolCount all).userIndex.length =
          symbolCount := Productions.length_userIndex
      have hadd : addToIndex p (Productions.ofList symbolCount all).userIndex =
          some (Productions.ofList symbolCount (p :: all)).userIndex := by
        refine addToIndex_eq_some fun n hn => ?_
        rw [hlength]
        exact hmen p List.mem_cons_self n hn
      rw [productions, ih fun q hq => hmen q (List.mem_cons_of_mem p hq)]
      simp only [Option.bind_eq_bind, Option.bind_some, hadd]
      rfl

theorem seed_eq_some {ps : Productions}
    (hown : ∀ p ∈ ps.all, p.owner < symbols.size) :
    seed ps.all symbols = some (Analysis.seed ps symbols) := by
  unfold Analysis.seed
  generalize ps.all = all at hown
  induction all generalizing symbols with
  | nil => rfl
  | cons p all ih =>
      have hall : ∀ q ∈ all, q.owner < (seedProduction symbols p).size := by
        intro q hq
        rw [size_eq_of_outline outline_seedProduction]
        exact hown q (List.mem_cons_of_mem p hq)
      rw [List.foldl_cons, ← ih hall, seed]
      split
      · next id _ hright =>
          rw [changeAt_eq_some (hown p List.mem_cons_self), seedProduction, hright]
          rfl
      · next hright =>
          rw [seedProduction]
          split
          · next id rest heq => exact absurd heq (hright id rest)
          · rfl

theorem symbolAt?_of_mentions {n : Nat} {rest : List Token}
    (hmen : Mentions symbols (.nonterminal n :: rest)) :
    ∃ symbol, symbolAt? symbols n = some symbol ∧
      nullableAt symbols n = symbol.nullable := by
  obtain ⟨symbol, hat⟩ := exists_symbolAt (hmen n List.mem_cons_self)
  refine ⟨symbol, hat, ?_⟩
  rw [nullableAt, hat, Option.any_some]

theorem sequenceFirst_eq_some (hmen : Mentions symbols tokens) :
    sequenceFirst mode symbols tokens =
      some (Analysis.sequenceFirst mode symbols tokens) := by
  induction tokens with
  | nil => rfl
  | cons token rest ih =>
      cases token with
      | terminal id => rfl
      | nonterminal n =>
          obtain ⟨symbol, hat, hnull⟩ := symbolAt?_of_mentions hmen
          rw [sequenceFirst, hat, Analysis.sequenceFirst, hnull,
            firstAt_of_symbolAt hat, ih hmen.tail]
          simp only [Option.bind_eq_bind, Option.bind_some]
          split <;> rfl

theorem sequenceNullable_eq_some (hmen : Mentions symbols tokens) :
    sequenceNullable symbols tokens =
      some (Analysis.sequenceNullable symbols tokens) := by
  induction tokens with
  | nil => rfl
  | cons token rest ih =>
      cases token with
      | terminal id => rfl
      | nonterminal n =>
          obtain ⟨symbol, hat, hnull⟩ := symbolAt?_of_mentions hmen
          have hcons : Analysis.sequenceNullable symbols (.nonterminal n :: rest) =
              (symbol.nullable && Analysis.sequenceNullable symbols rest) := by
            rw [← hnull]
            rfl
          rw [sequenceNullable, hat, hcons, ih hmen.tail]
          cases hsymbol : symbol.nullable with
          | false => simp [hsymbol]
          | true => simp [hsymbol]

theorem updateFirst_eq_some (hown : p.owner < symbols.size)
    (hmen : Mentions symbols p.right) :
    updateFirst mode symbols p.owner p.right =
      some (Analysis.updateFirst mode symbols p) := by
  rw [updateFirst, sequenceFirst_eq_some hmen, sequenceNullable_eq_some hmen]
  exact changeAt_eq_some hown

theorem followOf_eq_some (hown : owner < symbols.size)
    (hmen : Mentions symbols tokens) :
    followOf symbols owner tokens =
      some (Analysis.followOf symbols owner tokens) := by
  obtain ⟨symbol, hat⟩ := exists_symbolAt hown
  rw [followOf, sequenceFirst_eq_some hmen, sequenceNullable_eq_some hmen,
    Analysis.followOf, hat, followAt_of_symbolAt hat]
  cases Analysis.sequenceNullable symbols tokens <;> rfl

theorem updateFollow_eq_some (hown : owner < symbols.size)
    (hmen : Mentions symbols tokens) :
    updateFollow owner symbols tokens =
      some (Analysis.updateFollow owner symbols tokens) := by
  induction tokens generalizing symbols with
  | nil => rfl
  | cons token rest ih =>
      cases token with
      | terminal id => exact ih hown hmen.tail
      | nonterminal n =>
          have hout : outline (Analysis.changeAt symbols n fun symbol =>
              symbol.addFollow (Analysis.followOf symbols owner rest)).1 =
              outline symbols := outline_addFollow
          have hrest := ih (hown.trans_eq (size_eq_of_outline hout).symm)
            (hmen.tail.of_outline hout)
          rw [updateFollow, followOf_eq_some hown hmen.tail]
          simp only [Option.bind_eq_bind, Option.bind_some,
            changeAt_eq_some (hmen n List.mem_cons_self), hrest]
          rfl

/-! ## Productions of the grammar -/

theorem users_of_production (hp : p ∈ g.productionList) :
    g.productions.userIndex[p.owner]? = some (g.productions.users p.owner) := by
  have hlength : g.productions.userIndex.length = g.symbols.size :=
    Productions.length_userIndex
  rw [Productions.users, List.getElem?_eq_getElem (hlength ▸ Grammar.owner_lt hp),
    Option.getD_some]

theorem step_eq_some {w next : Worklist} {pending : Queue Production}
    (hrunning : Running g w) (hp : p ∈ g.productionList)
    (hpop : w.pending.pop? = some (p, pending))
    (hnext : w.step? mode g.productions = some next) :
    step mode g.rules g.productions w p pending = some next := by
  obtain ⟨rights, hrights, hright⟩ := mem_productionList_iff_rules.mp hp
  have hmen := covered_productionList hrunning.outline p hp
  rw [Worklist.step?, hpop, Option.map_some, Option.some.injEq] at hnext
  rw [step, hrights]
  simp only [Option.bind_eq_bind, Option.bind_some, hright,
    updateFirst_eq_some (hrunning.owner_lt hp) hmen, users_of_production hp]
  rw [← hnext]
  simp only []
  split <;> rfl

/-- As long as only productions of the grammar wait, no step gives up. -/
theorem run_eq_some {budget : Nat} {w : Worklist} (hrunning : Running g w) :
    run mode g.rules g.productions budget w =
      some (Worklist.run mode g.productions budget w) := by
  induction budget generalizing w with
  | zero => rfl
  | succ budget ih =>
      rw [run, Worklist.run]
      cases hpop : w.pending.pop? with
      | none => rw [Worklist.step?, hpop, Option.map_none]
      | some taken =>
          obtain ⟨p, pending⟩ := taken
          obtain ⟨next, hnext⟩ : ∃ next,
              w.step? mode g.productions = some next := by
            rw [Worklist.step?, hpop]
            exact ⟨_, rfl⟩
          have hp : p ∈ g.productionList := hrunning.pending p (by
            rw [Queue.toList_of_pop?_eq_some hpop]
            exact List.mem_cons_self)
          simp only [step_eq_some hrunning hp hpop hnext, hnext]
          exact ih (hrunning.next hnext)

theorem followPass_eq_some {all : List Production}
    (hown : ∀ p ∈ all, p.owner < symbols.size) (hcov : Covered symbols all) :
    followPass all symbols = some (Analysis.followPass all symbols) := by
  induction all generalizing symbols with
  | nil => rfl
  | cons p all ih =>
      have hall : ∀ q ∈ all,
          q.owner < (Analysis.updateFollow p.owner symbols p.right).1.size := by
        intro q hq
        rw [size_eq_of_outline outline_updateFollow]
        exact hown q (List.mem_cons_of_mem p hq)
      rw [followPass, updateFollow_eq_some (hown p List.mem_cons_self)
        (hcov p List.mem_cons_self)]
      simp only [Option.bind_eq_bind, Option.bind_some, ih hall hcov.next]
      rfl

theorem followRun_eq_some {budget : Nat} {r : FollowRun}
    (hout : outline r.symbols = outline g.symbols) :
    followRun g.productions budget r.symbols =
      some (FollowRun.run g.productions budget r).symbols := by
  induction budget generalizing r with
  | zero => rfl
  | succ budget ih =>
      have hpass : followPass g.productions.all r.symbols =
          some (Analysis.followPass g.productions.all r.symbols) :=
        followPass_eq_some (fun _ hp => owner_lt_of_outline hout hp)
          (covered_productionList hout)
      rw [followRun, FollowRun.run, hpass]
      simp only [Option.bind_eq_bind, Option.bind_some]
      split
      · exact ih (r := ⟨_, _⟩) (outline_followPass.trans hout)
      · rfl

/-- No look-up of an analysis is out of range. -/
theorem analysis_eq_some (g : Grammar) (mode : Mode) :
    analysis mode g = some (g.analysis mode).symbols := by
  have hps : productions g.symbols.size g.productionList = some g.productions :=
    productions_eq_some fun p hp n hn =>
      mentions_of_mem (right_mem_rightSides hp) n (Production.mem_mentioned.mp hn)
  have hseed : seed g.productions.all g.symbols =
      some (Analysis.seed g.productions g.symbols) :=
    seed_eq_some fun _ hp => Grammar.owner_lt hp
  have hrun : run mode g.rules g.productions
      (firstBudget g.productions (Analysis.seed g.productions g.symbols))
      { pending := .ofList g.productions.all
        symbols := Analysis.seed g.productions g.symbols } =
      some (firstSets mode g.productions g.symbols) := run_eq_some running_start
  rw [analysis, hps]
  simp only [Option.bind_eq_bind, Option.bind_some, hseed, hrun]
  cases mode with
  | firstOnly => rfl
  | follow =>
      exact followRun_eq_some (r := { symbols := _ }) outline_firstSets

end Checked

end Analysis

end Descent
