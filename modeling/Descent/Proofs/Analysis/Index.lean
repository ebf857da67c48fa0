import Descent.Grammar.Edit
import Descent.Proofs.Analysis.Validation

/-!
# Resolving the names of a grammar in one sweep

A sweep goes through the symbols in order, through their expansions and through the
names of each, and gives up at the first fault. On its way it writes the right sides
down and notes the place of an expansion for every symbol that it mentions. A place
is noted only where it is not the last one noted for that symbol.

To look at the last one is enough. While an expansion is swept, no other place is
noted for anybody, so the place is the last one as soon as it has been noted once
(`pushNew_pushNew`); and the places of the expansions before it are all different
ones (`pairwise_productionList`). So the sweep comes to the same as the right sides
and the index that an analysis works with (`sweep_eq`).
-/

namespace Descent

/-- The position of a symbol, and the index of one of its expansions. -/
abbrev Place := Nat × Nat

/-- The order of declaration. -/
def Place.Before (p q : Place) : Prop := p.1 < q.1 ∨ p.1 = q.1 ∧ p.2 < q.2

theorem Place.Before.ne {p q : Place} (h : p.Before q) : p ≠ q := by
  rintro rfl
  rcases h with h | ⟨-, h⟩ <;> exact Nat.lt_irrefl _ h

def Production.place (p : Production) : Place := (p.owner, p.index)

namespace Grammar

/-! ## The sweep -/

/-- For each position, the places noted for the symbol there. -/
abbrev Users := List (List Place)

abbrev Sweep := StateT Users (Except GrammarError)

namespace Sweep

/-- Adds a place unless it is the last one. -/
def pushNew (place : Place) (places : List Place) : List Place :=
  if places.getLast? = some place then places else places ++ [place]

def token (g : Grammar) (place : Place) (name : String) : Sweep Token :=
  match g.header.terminalId? name with
  | some id => return .terminal id
  | none =>
    match g.symbols.position? name with
    | none => throw (.undefined name)
    | some n => do
      modify (·.modify n (pushNew place))
      return .nonterminal n

def symbol (g : Grammar) (owner : Nat) (name : String) (s : Symbol) :
    Sweep (List (List Token)) :=
  if g.header.isTerminal name then
    throw (.expansionForTerminal name)
  else
    s.expansions.zipIdx.mapM fun expansion =>
      expansion.1.mapM (token g (owner, expansion.2))

end Sweep

/-- The right sides and the users of a grammar, or the first fault. -/
def sweep (g : Grammar) : Except GrammarError (List (List (List Token)) × Users) :=
  (g.symbols.entries.zipIdx.mapM fun entry =>
    Sweep.symbol g entry.2 entry.1.1 entry.1.2).run (List.replicate g.symbols.size [])

/-- The places in the index of an analysis. -/
def users (g : Grammar) : Users :=
  g.productions.userIndex.map fun ps => ps.map Production.place

/-! ## Noting places -/

namespace Sweep

variable {g : Grammar} {place : Place} {places : List Place} {users : Users} {n : Nat}

theorem pushNew_of_not_mem (h : place ∉ places) : pushNew place places = places ++ [place] := by
  refine if_neg fun hlast => h ?_
  exact List.mem_of_getLast? hlast

theorem pushNew_pushNew : pushNew place (pushNew place places) = pushNew place places := by
  refine if_pos ?_
  unfold pushNew
  split
  · assumption
  · exact List.getLast?_concat

/-- What a token leaves behind. -/
def note (place : Place) (users : Users) : Token → Users
  | .terminal _ => users
  | .nonterminal n => users.modify n (pushNew place)

/-- However often an expansion mentions a symbol, its place is noted once. -/
theorem getElem?_foldl_note {right : List Token} :
    (right.foldl (note place) users)[n]? = users[n]?.map fun places =>
      if .nonterminal n ∈ right then pushNew place places else places := by
  induction right generalizing users with
  | nil => simp
  | cons token right ih =>
      rw [List.foldl_cons, ih]
      cases token with
      | terminal id => simp [note]
      | nonterminal m =>
          rw [note, List.getElem?_modify, Option.map_eq_map, Option.map_map]
          refine congrArg (fun f => users[n]?.map f) (funext fun places => ?_)
          by_cases heq : m = n
          · subst heq
            simp [pushNew_pushNew]
          · have hne : n ≠ m := fun h => heq h.symm
            simp [heq, hne]

/-- What an expansion leaves behind. -/
def noteAll (users : Users) (p : Production) : Users := p.right.foldl (note p.place) users

/-- The places of expansions that have not come yet are new to everybody. -/
theorem getElem?_foldl_noteAll {ps : List Production}
    (hnodup : (ps.map Production.place).Nodup)
    (hnew : ∀ places, users[n]? = some places → ∀ p ∈ ps, p.place ∉ places) :
    (ps.foldl noteAll users)[n]? = users[n]?.map fun places =>
      places ++ (ps.filter fun p => .nonterminal n ∈ p.right).map Production.place := by
  induction ps generalizing users with
  | nil => simp
  | cons p ps ih =>
      rw [List.map_cons, List.nodup_cons] at hnodup
      have hstep : (noteAll users p)[n]? = users[n]?.map fun places =>
          if .nonterminal n ∈ p.right then places ++ [p.place] else places := by
        rw [noteAll, getElem?_foldl_note]
        refine Option.map_congr fun places hplaces => ?_
        rw [pushNew_of_not_mem (hnew places hplaces p List.mem_cons_self)]
      rw [List.foldl_cons, ih hnodup.2, hstep, Option.map_map]
      · refine congrArg (fun f => users[n]?.map f) (funext fun places => ?_)
        by_cases hmem : .nonterminal n ∈ p.right <;> simp [hmem]
      · intro later hlater q hq
        rw [hstep] at hlater
        obtain ⟨places, hplaces, rfl⟩ := Option.map_eq_some_iff.mp hlater
        have hold := hnew places hplaces q (List.mem_cons_of_mem p hq)
        have hne : q.place ≠ p.place := fun heq =>
          hnodup.1 (heq ▸ List.mem_map_of_mem hq)
        split
        · simp [hold, hne]
        · exact hold

end Sweep

/-! ## The order of the productions -/

variable {g : Grammar}

theorem owner_of_mem_productionsOf {owner : Nat} {s : Symbol} {p : Production}
    (hp : p ∈ g.productionsOf owner s) : p.owner = owner := by
  obtain ⟨_, -, rfl⟩ := List.mem_map.mp hp
  rfl

theorem pairwise_productionList :
    (g.productionList.map Production.place).Pairwise Place.Before := by
  rw [List.pairwise_map, productionList, List.pairwise_flatMap]
  constructor
  · intro entry _
    rw [productionsOf, List.pairwise_map]
    exact (List.pairwise_map.mp (pairwise_zipIdx_snd _)).imp fun h => Or.inr ⟨rfl, h⟩
  · refine (List.pairwise_map.mp (pairwise_zipIdx_snd _)).imp fun hlt p hp q hq => Or.inl ?_
    show p.owner < q.owner
    rw [owner_of_mem_productionsOf hp, owner_of_mem_productionsOf hq]
    exact hlt

theorem nodup_places : (g.productionList.map Production.place).Nodup :=
  pairwise_productionList.imp Place.Before.ne

theorem getElem?_users {n : Nat} (hn : n < g.symbols.size) :
    g.users[n]? = some
      ((g.productionList.filter fun p => .nonterminal n ∈ p.right).map Production.place) := by
  rw [users, List.getElem?_map, productions, Productions.ofList, Productions.getElem?_index hn,
    Option.map_some]

theorem length_users_eq : g.users.length = g.symbols.size := by
  rw [users, List.length_map, productions, Productions.length_userIndex]

/-- Noting the places of all productions gives the index of an analysis. -/
theorem foldl_noteAll :
    g.productionList.foldl Sweep.noteAll (List.replicate g.symbols.size []) = g.users := by
  refine List.ext_getElem? fun n => ?_
  rw [Sweep.getElem?_foldl_noteAll nodup_places]
  · rcases Nat.lt_or_ge n g.symbols.size with hn | hn
    · rw [List.getElem?_replicate_of_lt hn, getElem?_users hn]
      rfl
    · rw [List.getElem?_eq_none (by simpa using hn), List.getElem?_eq_none]
      · rfl
      · rw [length_users_eq]
        exact hn
  · intro places hplaces p _
    rw [List.eq_of_mem_replicate (List.mem_of_getElem? hplaces)]
    exact List.not_mem_nil

/-! ## What the sweep comes to -/

namespace Sweep

/-- The value of something, or its fault if it has one. -/
def outcome {β : Type} (fault : Option GrammarError) (value : β) : Except GrammarError β :=
  match fault with
  | some e => .error e
  | none => .ok value

theorem mapM_outcome {α β : Type} {fault : α → Option GrammarError} {value : α → β}
    {l : List α} :
    l.mapM (fun a => outcome (fault a) (value a)) = outcome (l.findSome? fault) (l.map value) := by
  induction l with
  | nil => rfl
  | cons a l ih =>
      rw [List.mapM_cons, ih, List.findSome?_cons]
      cases fault a with
      | some e => rfl
      | none => cases l.findSome? fault <;> rfl

/-- A sweep over a list, where each part comes to the same no matter what has been noted
so far. -/
theorem run_mapM {α β : Type} {f : α → Sweep β} {result : α → Except GrammarError β}
    {step : Users → α → Users}
    (h : ∀ a users, (f a).run users = (result a).map fun b => (b, step users a))
    {l : List α} {users : Users} :
    (l.mapM f).run users = (l.mapM result).map fun bs => (bs, l.foldl step users) := by
  induction l generalizing users with
  | nil => rfl
  | cons a l ih =>
      rw [List.mapM_cons, List.mapM_cons, StateT.run_bind, h]
      cases result a with
      | error e => rfl
      | ok b =>
          show (l.mapM f >>= fun bs => pure (b :: bs)).run (step users a) = _
          rw [StateT.run_bind, ih]
          cases l.mapM result <;> rfl

/-- A numbered sweep, where the outcome of a part has nothing to do with its number. -/
theorem run_mapM_zipIdx {α β : Type} {f : α × Nat → Sweep β} {step : Users → α × Nat → Users}
    (fault : α → Option GrammarError) (value : α → β)
    (h : ∀ a users, (f a).run users =
      (outcome (fault a.1) (value a.1)).map fun b => (b, step users a))
    {l : List α} {users : Users} :
    (l.zipIdx.mapM f).run users =
      (outcome (l.findSome? fault) (l.map value)).map fun bs =>
        (bs, l.zipIdx.foldl step users) := by
  have hfault : (l.zipIdx.findSome? fun a => fault a.1) = l.findSome? fault := by
    have hmap : (l.zipIdx.findSome? fun a => fault a.1) =
        (l.zipIdx.map Prod.fst).findSome? fault := List.findSome?_map.symm
    rw [hmap, List.zipIdx_map_fst]
  rw [run_mapM h, mapM_outcome, hfault, map_zipIdx_fst l value]

variable {place : Place} {users : Users}

def resolveName (g : Grammar) (name : String) : Except GrammarError Token :=
  match g.resolve name with
  | some token => .ok token
  | none => .error (.undefined name)

def noteName (g : Grammar) (place : Place) (users : Users) (name : String) : Users :=
  match g.resolve name with
  | some token => note place users token
  | none => users

theorem run_token {name : String} :
    (token g place name).run users =
      (resolveName g name).map fun t => (t, noteName g place users name) := by
  unfold token resolveName noteName resolve
  cases g.header.terminalId? name with
  | some id => rfl
  | none => cases g.symbols.position? name <;> rfl

theorem mapM_resolveName {names : List String} :
    names.mapM (resolveName g) =
      outcome ((g.undefined? names).map .undefined) (names.filterMap g.resolve) := by
  induction names with
  | nil => rfl
  | cons name names ih =>
      rw [List.mapM_cons, ih, undefined?, undefined?, List.find?_cons, resolveName,
        List.filterMap_cons]
      cases g.resolve name with
      | none => rfl
      | some token => cases names.find? fun name => (g.resolve name).isNone <;> rfl

theorem foldl_noteName {names : List String} :
    names.foldl (noteName g place) users = (names.filterMap g.resolve).foldl (note place) users := by
  induction names generalizing users with
  | nil => rfl
  | cons name names ih =>
      rw [List.foldl_cons, ih, List.filterMap_cons, noteName]
      cases g.resolve name <;> rfl

theorem run_expansion {expansion : Expansion} {owner index : Nat} :
    (expansion.mapM (token g (owner, index))).run users =
      (outcome ((g.undefined? expansion).map .undefined) (expansion.filterMap g.resolve)).map
        fun right => (right, noteAll users ⟨owner, index, expansion.filterMap g.resolve⟩) := by
  rw [run_mapM fun _ _ => run_token, mapM_resolveName, foldl_noteName]
  rfl

theorem run_symbol {owner : Nat} {name : String} {s : Symbol} :
    (symbol g owner name s).run users =
      (outcome (g.symbolFault? name s)
        (s.expansions.map fun expansion => expansion.filterMap g.resolve)).map
          fun rights => (rights, (g.productionsOf owner s).foldl noteAll users) := by
  unfold symbol symbolFault?
  split
  · rfl
  · have hfault : (g.undefined? s.expansions.flatten).map GrammarError.undefined =
        s.expansions.findSome? fun expansion =>
          (g.undefined? expansion).map GrammarError.undefined := by
      rw [undefined?, List.find?_flatten, List.map_findSome?]
      rfl
    rw [run_mapM_zipIdx (fun expansion => (g.undefined? expansion).map .undefined)
        (fun expansion => expansion.filterMap g.resolve) fun _ _ => run_expansion,
      hfault, productionsOf, List.foldl_map]

end Sweep

/-- The sweep stops at what the analysis finds fault with, and else ends with what the
analysis works on. -/
theorem sweep_eq : g.sweep = Sweep.outcome g.fault? (g.rules, g.users) := by
  have hrules : (g.symbols.entries.map fun entry => entry.2.expansions.map fun expansion =>
      expansion.filterMap g.resolve) = g.rules := by
    rw [rules, Table.values, List.map_map]
    rfl
  have husers : g.symbols.entries.zipIdx.foldl (fun users entry =>
      (g.productionsOf entry.2 entry.1.2).foldl Sweep.noteAll users)
        (List.replicate g.symbols.size []) = g.users := by
    rw [← foldl_noteAll, productionList, Table.values, List.zipIdx_map, List.flatMap_map,
      List.foldl_flatMap]
    rfl
  rw [sweep, Sweep.run_mapM_zipIdx (fun entry => g.symbolFault? entry.1 entry.2)
      (fun entry => entry.2.expansions.map fun expansion => expansion.filterMap g.resolve)
      fun _ _ => Sweep.run_symbol, hrules, husers, fault?]
  cases g.symbols.entries.findSome? fun entry => g.symbolFault? entry.1 entry.2 <;> rfl

/-! ## The index -/

/-- What an index has to be: the right sides are the expansions, name by name, and for
each symbol the places where it is mentioned are listed in the order of declaration. -/
structure Indexed (g : Grammar) (rules : List (List (List Token))) (users : Users) :
    Prop where
  resolved : rules.map (·.map (·.map some)) =
    g.symbols.values.map fun s => s.expansions.map (·.map g.resolve)
  size : users.length = g.symbols.size
  ordered : ∀ places ∈ users, places.Pairwise Place.Before
  mem : ∀ n places, users[n]? = some places → ∀ owner index,
    (owner, index) ∈ places ↔ ∃ rights right, rules[owner]? = some rights ∧
      rights[index]? = some right ∧ Token.nonterminal n ∈ right

theorem eq_of_getElem?_users {n : Nat} {places : List Place} (h : g.users[n]? = some places) :
    places =
      (g.productionList.filter fun p => .nonterminal n ∈ p.right).map Production.place := by
  have hn : n < g.symbols.size := by
    rw [← length_users_eq]
    exact (List.getElem?_eq_some_iff.mp h).1
  rw [getElem?_users hn] at h
  exact (Option.some.inj h).symm

theorem indexed (hvalid : g.fault? = none) : Indexed g g.rules g.users where
  resolved := by
    have hresolve : ∀ s ∈ g.symbols.values, ∀ expansion ∈ s.expansions,
        (expansion.filterMap g.resolve).map some = expansion.map g.resolve := by
      intro s hs expansion hexpansion
      obtain ⟨entry, hentry, rfl⟩ := List.mem_map.mp hs
      refine (map_resolve_eq fun name hname => ?_).symm
      have hfits := fault?_eq_none_iff.mp hvalid entry hentry
      rw [Option.isSome_iff_ne_none]
      exact fun hnone => hfits
        (Or.inr ⟨expansion, hexpansion, name, hname, resolve_eq_none_iff.mp hnone⟩)
    rw [rules, List.map_map]
    refine List.map_congr_left fun s hs => ?_
    rw [Function.comp_apply, List.map_map]
    exact List.map_congr_left (hresolve s hs)
  size := length_users_eq
  ordered places hplaces := by
    obtain ⟨n, hat⟩ := List.getElem?_of_mem hplaces
    rw [eq_of_getElem?_users hat]
    exact pairwise_productionList.sublist (List.filter_sublist.map _)
  mem n places hat owner index := by
    rw [eq_of_getElem?_users hat]
    simp only [List.mem_map, List.mem_filter, decide_eq_true_eq]
    constructor
    · rintro ⟨p, ⟨hp, hmem⟩, hplace⟩
      obtain ⟨rights, hrights, hright⟩ := mem_productionList_iff_rules.mp hp
      cases hplace
      exact ⟨rights, p.right, hrights, hright, hmem⟩
    · rintro ⟨rights, right, hrights, hright, hmem⟩
      have hp : ⟨owner, index, right⟩ ∈ g.productionList :=
        mem_productionList_iff_rules.mpr ⟨rights, hrights, hright⟩
      exact ⟨_, ⟨hp, hmem⟩, rfl⟩

/-- A sweep that gives an index gives a complete one without repetitions, and it is the
one that an analysis works with. -/
theorem sweep_indexes_users (g : Grammar) {rules : List (List (List Token))} {users : Users}
    (h : g.sweep = .ok (rules, users)) :
    Indexed g rules users ∧ g.fault? = none ∧ rules = g.rules ∧ users = g.users := by
  rw [sweep_eq] at h
  cases hfault : g.fault? with
  | some e =>
      rw [hfault] at h
      cases h
  | none =>
      rw [hfault] at h
      cases h
      exact ⟨indexed hfault, rfl, rfl, rfl⟩

/-- An expansion that mentions `b` on both sides of itself, and one that doubles it. -/
def echoing : Grammar :=
  (((({} : Grammar).setTerminal "X" "x").addExpansion "a" ["b", "X", "a", "b"]).addExpansion
    "b" ["X"]).addExpansion "a" ["b", "b"]

theorem sweep_indexes_users_echoing :
    ∃ rules, echoing.sweep = .ok (rules, [[(0, 0)], [(0, 0), (0, 1)]]) ∧
      Indexed echoing rules [[(0, 0)], [(0, 0), (0, 1)]] := by
  have hsweep : echoing.sweep = .ok
      ([[[.nonterminal 1, .terminal 0, .nonterminal 0, .nonterminal 1],
          [.nonterminal 1, .nonterminal 1]], [[.terminal 0]]],
        [[(0, 0)], [(0, 0), (0, 1)]]) := rfl
  exact ⟨_, hsweep, (sweep_indexes_users echoing hsweep).1⟩

end Grammar

end Descent
