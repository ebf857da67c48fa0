import Descent.Analysis.State
import Descent.Proofs.Grammar.Derivation

/-!
# Facts about symbols, with and without a table

The analysis keeps what it knows in the table of symbols. Here the same kind of
knowledge is a pair of predicates, which need not be finite and need not come
from a table: which symbols are nullable, and which terminals begin which
symbol. What they say about a sequence of tokens follows the code's scan of a
right side, token by token.

Facts are closed when no right side adds to them. Closed facts can be read
backwards along a derivation: what begins a derived form began the form it was
derived from (`Closed.begins_of_derives`). That is one half of exactness. The
other half is that derivability itself, taken as facts, is closed
(`derived_closed`), since the analysis never goes beyond closed facts.

FOLLOW is treated the same way. What closed FOLLOW facts say of every place of
a form stays right along a derivation (`FollowFits.of_derives`), and being
followed in some derived form is closed (`followed_closed`).
-/

namespace Descent.Analysis

open Grammar

/-- What may be said of the symbols: which are nullable, and which terminals
begin which symbol. -/
structure FirstFacts where
  nullable : Nat → Prop
  first : Nat → Nat → Prop

namespace FirstFacts

/-- The first facts say no more than the second. -/
structure Le (f f' : FirstFacts) : Prop where
  nullable {n : Nat} (h : f.nullable n) : f'.nullable n
  first {n t : Nat} (h : f.first n t) : f'.first n t

instance : LE FirstFacts := ⟨Le⟩

/-- Every token of a sequence is a nullable symbol. -/
def Vanishes (f : FirstFacts) : List Token → Prop
  | [] => True
  | .terminal _ :: _ => False
  | .nonterminal n :: rest => f.nullable n ∧ f.Vanishes rest

/-- A terminal begins a sequence: what stands in front of it is nullable. -/
def Begins (f : FirstFacts) (mode : Mode) : List Token → Nat → Prop
  | [], _ => False
  | .terminal id :: _, t => mode = .follow ∧ t = id
  | .nonterminal n :: rest, t =>
      f.first n t ∨ f.nullable n ∧ f.Begins mode rest t

variable {f f' : FirstFacts} {mode : Mode} {g : Grammar}

theorem le_refl (f : FirstFacts) : f ≤ f := ⟨id, id⟩

theorem le_trans {f'' : FirstFacts} (h : f ≤ f') (h' : f' ≤ f'') : f ≤ f'' :=
  ⟨fun hn => h'.nullable (h.nullable hn), fun ht => h'.first (h.first ht)⟩

theorem le_antisymm (h : f ≤ f') (h' : f' ≤ f) : f = f' := by
  obtain ⟨nullable, first⟩ := f
  obtain ⟨nullable', first'⟩ := f'
  obtain rfl : nullable = nullable' :=
    funext fun n => propext ⟨h.nullable, h'.nullable⟩
  obtain rfl : first = first' :=
    funext fun n => funext fun t => propext ⟨h.first, h'.first⟩
  rfl

/-- One set of facts says at least as much as another about the symbols of a
sequence. -/
def LeOn (f f' : FirstFacts) (tokens : List Token) : Prop :=
  ∀ n, .nonterminal n ∈ tokens →
    (f.nullable n → f'.nullable n) ∧ ∀ t, f.first n t → f'.first n t

theorem Le.leOn (h : f ≤ f') (tokens : List Token) : f.LeOn f' tokens :=
  fun _ _ => ⟨h.nullable, fun _ => h.first⟩

theorem LeOn.tail {token : Token} {rest : List Token}
    (h : f.LeOn f' (token :: rest)) : f.LeOn f' rest :=
  fun n hn => h n (List.mem_cons_of_mem token hn)

theorem Vanishes.mono_on {tokens : List Token} (hle : f.LeOn f' tokens)
    (h : f.Vanishes tokens) : f'.Vanishes tokens := by
  induction tokens with
  | nil => trivial
  | cons token rest ih =>
      cases token with
      | terminal id => exact h
      | nonterminal n =>
          exact ⟨(hle n List.mem_cons_self).1 h.1, ih hle.tail h.2⟩

theorem Begins.mono_on {tokens : List Token} {t : Nat}
    (hle : f.LeOn f' tokens) (h : f.Begins mode tokens t) :
    f'.Begins mode tokens t := by
  induction tokens with
  | nil => exact h
  | cons token rest ih =>
      cases token with
      | terminal id => exact h
      | nonterminal n =>
          obtain ⟨hnull', hfirst'⟩ := hle n List.mem_cons_self
          rcases h with hfirst | ⟨hnull, hrest⟩
          · exact Or.inl (hfirst' t hfirst)
          · exact Or.inr ⟨hnull' hnull, ih hle.tail hrest⟩

theorem Vanishes.mono (hle : f ≤ f') {tokens : List Token}
    (h : f.Vanishes tokens) : f'.Vanishes tokens := h.mono_on (hle.leOn tokens)

theorem Begins.mono (hle : f ≤ f') {tokens : List Token} {t : Nat}
    (h : f.Begins mode tokens t) : f'.Begins mode tokens t :=
  h.mono_on (hle.leOn tokens)

/-- What begins a sequence where terminals behind nullable symbols do not count
begins it where they do. -/
theorem Begins.counted {tokens : List Token} {t : Nat}
    (h : f.Begins mode tokens t) : f.Begins .follow tokens t := by
  induction tokens with
  | nil => exact h
  | cons token rest ih =>
      cases token with
      | terminal id => exact ⟨rfl, h.2⟩
      | nonterminal n => exact h.imp id fun h => ⟨h.1, ih h.2⟩

theorem vanishes_append {front back : List Token} :
    f.Vanishes (front ++ back) ↔ f.Vanishes front ∧ f.Vanishes back := by
  induction front with
  | nil => exact ⟨fun h => ⟨trivial, h⟩, fun h => h.2⟩
  | cons token front ih =>
      cases token with
      | terminal id => exact ⟨fun h => h.elim, fun h => h.1.elim⟩
      | nonterminal n =>
          simp only [List.cons_append, Vanishes, ih, and_assoc]

theorem begins_append {front back : List Token} {t : Nat} :
    f.Begins mode (front ++ back) t ↔
      f.Begins mode front t ∨ f.Vanishes front ∧ f.Begins mode back t := by
  induction front with
  | nil => simp only [List.nil_append, Begins, Vanishes, false_or, true_and]
  | cons token front ih =>
      cases token with
      | terminal id =>
          simp only [List.cons_append, Begins, Vanishes, false_and, or_false]
      | nonterminal n =>
          simp only [List.cons_append, Begins, Vanishes, ih]
          rw [and_or_left, or_assoc, and_assoc]

/-! ## Closed facts -/

/-- No right side adds anything. A leading terminal counts in either mode. -/
structure Closed (f : FirstFacts) (g : Grammar) (mode : Mode) : Prop where
  seeded {n t : Nat} {rest : List Token}
    (mem : .terminal t :: rest ∈ g.rightSides n) : f.first n t
  first {n t : Nat} {right : List Token} (mem : right ∈ g.rightSides n)
    (h : f.Begins mode right t) : f.first n t
  nullable {n : Nat} {right : List Token} (mem : right ∈ g.rightSides n)
    (h : f.Vanishes right) : f.nullable n

theorem Closed.congr {g' : Grammar} (h : g'.rightSides = g.rightSides)
    (hc : f.Closed g mode) : f.Closed g' mode where
  seeded mem := hc.seeded (h ▸ mem)
  first mem := hc.first (h ▸ mem)
  nullable mem := hc.nullable (h ▸ mem)

theorem Closed.inMode (hc : f.Closed g .follow) : f.Closed g mode where
  seeded mem := hc.seeded mem
  first mem h := hc.first mem h.counted
  nullable mem h := hc.nullable mem h

theorem Closed.vanishes_of_expands (hc : f.Closed g mode)
    {form next : List Token} (hstep : g.Expands form next)
    (h : f.Vanishes next) : f.Vanishes form := by
  cases hstep with
  | replace before after mem =>
      obtain ⟨hfront, hafter⟩ := vanishes_append.mp h
      obtain ⟨hbefore, hright⟩ := vanishes_append.mp hfront
      exact vanishes_append.mpr ⟨hbefore, hc.nullable mem hright, hafter⟩

theorem Closed.begins_of_expands (hc : f.Closed g mode)
    {form next : List Token} {t : Nat} (hstep : g.Expands form next)
    (h : f.Begins mode next t) : f.Begins mode form t := by
  cases hstep with
  | replace before after mem =>
      rw [List.append_assoc] at h
      refine begins_append.mpr ?_
      rcases begins_append.mp h with hbefore | ⟨hbefore, h⟩
      · exact Or.inl hbefore
      · refine Or.inr ⟨hbefore, ?_⟩
        rcases begins_append.mp h with hright | ⟨hright, hafter⟩
        · exact Or.inl (hc.first mem hright)
        · exact Or.inr ⟨hc.nullable mem hright, hafter⟩

theorem Closed.vanishes_of_derives (hc : f.Closed g mode)
    {form last : List Token} (hd : g.Derives form last)
    (h : f.Vanishes last) : f.Vanishes form := by
  induction hd with
  | refl _ => exact h
  | step first _ ih => exact hc.vanishes_of_expands first (ih h)

/-- What begins a derived form began the form that it was derived from. -/
theorem Closed.begins_of_derives (hc : f.Closed g mode)
    {form last : List Token} {t : Nat} (hd : g.Derives form last)
    (h : f.Begins mode last t) : f.Begins mode form t := by
  induction hd with
  | refl _ => exact h
  | step first _ ih => exact hc.begins_of_expands first (ih h)

theorem Closed.nullable_of_derives (hc : f.Closed g mode) {n : Nat}
    (hd : g.Derives [.nonterminal n] []) : f.nullable n :=
  (hc.vanishes_of_derives hd trivial).1

theorem Closed.first_of_derives (hc : f.Closed g .follow) {n t : Nat}
    {rest : List Token}
    (hd : g.Derives [.nonterminal n] (.terminal t :: rest)) : f.first n t := by
  rcases hc.begins_of_derives hd ⟨rfl, rfl⟩ with hfirst | ⟨_, hnil⟩
  · exact hfirst
  · exact hnil.elim

end FirstFacts

/-! ## Derivability as facts -/

/-- What derivations say: a nullable symbol derives the empty form, and the
terminals of FIRST are in front of what is derived in at least one step. -/
def derived (g : Grammar) : FirstFacts where
  nullable n := g.Derives [.nonterminal n] []
  first n t := ∃ rest, g.DerivesProperly [.nonterminal n] (.terminal t :: rest)

open FirstFacts

variable {g : Grammar}

theorem derives_nil_of_vanishes {tokens : List Token}
    (h : (derived g).Vanishes tokens) : g.Derives tokens [] := by
  induction tokens with
  | nil => exact .refl _
  | cons token rest ih =>
      cases token with
      | terminal id => exact h.elim
      | nonterminal n => exact Derives.append h.1 (ih h.2)

theorem derives_of_begins {tokens : List Token} {t : Nat}
    (h : (derived g).Begins .follow tokens t) :
    ∃ rest, g.Derives tokens (.terminal t :: rest) := by
  induction tokens with
  | nil => exact h.elim
  | cons token tokens ih =>
      cases token with
      | terminal id =>
          obtain ⟨-, rfl⟩ := h
          exact ⟨tokens, .refl _⟩
      | nonterminal n =>
          rcases h with ⟨rest, hfirst⟩ | ⟨hnull, hrest⟩
          · exact ⟨rest ++ tokens, hfirst.derives.append (.refl tokens)⟩
          · obtain ⟨rest, hd⟩ := ih hrest
            exact ⟨rest, Derives.append hnull hd⟩

theorem derived_closed (g : Grammar) : (derived g).Closed g .follow where
  seeded mem := ⟨_, _, .of_mem mem, .refl _⟩
  first mem h := by
    obtain ⟨rest, hd⟩ := derives_of_begins h
    exact ⟨rest, _, .of_mem mem, hd⟩
  nullable mem h := (Derives.of_mem mem).trans (derives_nil_of_vanishes h)

/-! ## Facts within bounds -/

variable {mode : Mode}

/-- The largest facts that name certain terminals only. -/
def factsWithin (allowed : Nat → Prop) : FirstFacts where
  nullable _ := True
  first _ t := allowed t

theorem allowed_of_begins {allowed : Nat → Prop} {tokens : List Token}
    {t : Nat} (hin : ∀ u, .terminal u ∈ tokens → allowed u)
    (h : (factsWithin allowed).Begins mode tokens t) : allowed t := by
  induction tokens with
  | nil => exact h.elim
  | cons token rest ih =>
      cases token with
      | terminal id =>
          obtain ⟨-, rfl⟩ := h
          exact hin t List.mem_cons_self
      | nonterminal n =>
          rcases h with hfirst | ⟨_, hrest⟩
          · exact hfirst
          · exact ih (fun u hu => hin u (List.mem_cons_of_mem _ hu)) hrest

theorem factsWithin_closed {allowed : Nat → Prop}
    (hin : ∀ {n : Nat} {right : List Token}, right ∈ g.rightSides n →
      ∀ u, .terminal u ∈ right → allowed u) :
    (factsWithin allowed).Closed g mode where
  seeded mem := hin mem _ List.mem_cons_self
  first mem h := allowed_of_begins (hin mem) h
  nullable _ _ := trivial

/-! ## FOLLOW

Behind a place stand the rest of the sequence and then whatever is ahead of the
whole. In a right side, what follows the owner is ahead; in a form that stands
alone, nothing is. -/

/-- The terminals behind a place: what begins the rest and, where the rest
vanishes, what is ahead. -/
def Behind (f : FirstFacts) (ahead : Nat → Prop) (rest : List Token) (t : Nat) :
    Prop :=
  f.Begins .follow rest t ∨ f.Vanishes rest ∧ ahead t

/-- At every place of a sequence, what is behind the symbol there follows it. -/
def FollowFits (f : FirstFacts) (follow : Nat → Nat → Prop)
    (ahead : Nat → Prop) : List Token → Prop
  | [] => True
  | .terminal _ :: rest => FollowFits f follow ahead rest
  | .nonterminal n :: rest =>
      (∀ t, Behind f ahead rest t → follow n t) ∧ FollowFits f follow ahead rest

/-- No place of a right side adds to the FOLLOW facts. -/
def FollowClosed (g : Grammar) (f : FirstFacts) (follow : Nat → Nat → Prop) :
    Prop :=
  ∀ (owner : Nat) (right : List Token), right ∈ g.rightSides owner →
    FollowFits f follow (follow owner) right

variable {f f' : FirstFacts} {follow : Nat → Nat → Prop} {ahead : Nat → Prop}

theorem FollowClosed.congr {g' : Grammar} (h : g'.rightSides = g.rightSides)
    (hc : FollowClosed g f follow) : FollowClosed g' f follow :=
  fun owner right mem => hc owner right (h ▸ mem)

theorem Behind.mono (hle : f ≤ f') {ahead' : Nat → Prop} {rest : List Token}
    (hahead : ∀ t, ahead t → ahead' t) {t : Nat} (h : Behind f ahead rest t) :
    Behind f' ahead' rest t := by
  rcases h with hbegins | ⟨hnull, ht⟩
  · exact Or.inl (hbegins.mono hle)
  · exact Or.inr ⟨hnull.mono hle, hahead t ht⟩

theorem behind_append {front back : List Token} {t : Nat} :
    Behind f ahead (front ++ back) t ↔
      Behind f (Behind f ahead back) front t := by
  simp only [Behind, begins_append, vanishes_append]
  rw [and_or_left, or_assoc, and_assoc]

theorem FollowFits.anti (hle : f ≤ f') {ahead' : Nat → Prop}
    (hahead : ∀ t, ahead t → ahead' t) {tokens : List Token}
    (h : FollowFits f' follow ahead' tokens) :
    FollowFits f follow ahead tokens := by
  induction tokens with
  | nil => trivial
  | cons token rest ih =>
      cases token with
      | terminal id => exact ih h
      | nonterminal n =>
          exact ⟨fun t ht => h.1 t (ht.mono hle hahead), ih h.2⟩

theorem followFits_append {front back : List Token} :
    FollowFits f follow ahead (front ++ back) ↔
      FollowFits f follow (Behind f ahead back) front ∧
        FollowFits f follow ahead back := by
  induction front with
  | nil => exact ⟨fun h => ⟨trivial, h⟩, fun h => h.2⟩
  | cons token front ih =>
      cases token with
      | terminal id => exact ih
      | nonterminal n =>
          simp only [List.cons_append, FollowFits, ih, behind_append, and_assoc]

/-- A step keeps the fit: in front of the new right side less is behind, and
inside it the right side's own fit is carried over from the owner's place. -/
theorem FollowFits.of_expands (hf : f.Closed g .follow)
    (hc : FollowClosed g f follow) {form next : List Token}
    (hstep : g.Expands form next) (h : FollowFits f follow ahead form) :
    FollowFits f follow ahead next := by
  cases hstep with
  | @replace before after n right mem =>
      obtain ⟨hbefore, hn, hafter⟩ := followFits_append.mp h
      have hbehind : ∀ t, Behind f ahead (right ++ after) t →
          Behind f ahead (.nonterminal n :: after) t := by
        intro t ht
        rcases behind_append.mp ht with hbegins | ⟨hnull, ht⟩
        · exact Or.inl (Or.inl (hf.first mem hbegins))
        · have hn := hf.nullable mem hnull
          rcases ht with hbegins | ⟨hrest, ht⟩
          · exact Or.inl (Or.inr ⟨hn, hbegins⟩)
          · exact Or.inr ⟨⟨hn, hrest⟩, ht⟩
      rw [List.append_assoc]
      exact followFits_append.mpr
        ⟨hbefore.anti (le_refl f) hbehind,
          followFits_append.mpr ⟨(hc n right mem).anti (le_refl f) hn, hafter⟩⟩

theorem FollowFits.of_derives (hf : f.Closed g .follow)
    (hc : FollowClosed g f follow) {form last : List Token}
    (hd : g.Derives form last) (h : FollowFits f follow ahead form) :
    FollowFits f follow ahead last := by
  induction hd with
  | refl _ => exact h
  | step first _ ih => exact ih (h.of_expands hf hc first)

/-- A symbol alone, with nothing ahead, has nothing behind it. -/
theorem followFits_alone (n : Nat) :
    FollowFits f follow (fun _ => False) [.nonterminal n] := by
  refine ⟨fun t ht => ?_, trivial⟩
  rcases ht with hbegins | ⟨_, hfalse⟩
  · exact hbegins.elim
  · exact hfalse.elim

theorem FollowClosed.follow_of_derives (hf : f.Closed g .follow)
    (hc : FollowClosed g f follow) {a n t : Nat} {before after : List Token}
    (hd : g.Derives [.nonterminal a]
      (before ++ .nonterminal n :: .terminal t :: after)) : follow n t := by
  have hfits := (followFits_alone a).of_derives hf hc hd
  exact (followFits_append.mp hfits).2.1 t (Or.inl ⟨rfl, rfl⟩)

/-- A symbol is followed by a terminal in a form that a declared symbol
derives. -/
def followed (g : Grammar) (n t : Nat) : Prop :=
  ∃ a, a < g.symbols.size ∧ ∃ before after, g.Derives [.nonterminal a]
    (before ++ .nonterminal n :: .terminal t :: after)

theorem lt_size_of_mem_rightSides {n : Nat} {right : List Token}
    (mem : right ∈ g.rightSides n) : n < g.symbols.size := by
  unfold rightSides at mem
  split at mem
  · cases mem
  · next entry hat => exact (List.getElem?_eq_some_iff.mp hat).1

theorem followed_closed (g : Grammar) :
    FollowClosed g (derived g) (followed g) := by
  intro owner right mem
  -- The induction runs down the right side; `before` is what it has passed.
  suffices hsuffix : ∀ rest before, before ++ rest = right →
      FollowFits (derived g) (followed g) (followed g owner) rest from
    hsuffix right [] rfl
  intro rest
  induction rest with
  | nil => intro before _; trivial
  | cons token rest ih =>
      intro before hright
      have htail := ih (before ++ [token])
        (by rw [List.append_assoc, List.singleton_append, hright])
      cases token with
      | terminal id => exact htail
      | nonterminal n =>
          refine ⟨fun t ht => ?_, htail⟩
          have howner : g.Derives [.nonterminal owner]
              (before ++ .nonterminal n :: rest) := hright ▸ .of_mem mem
          rcases ht with hbegins | ⟨hnull, a, ha, front, back, hd⟩
          · obtain ⟨after, hrest⟩ := derives_of_begins hbegins
            have hin := hrest.context (before ++ [.nonterminal n]) []
            simp only [List.append_assoc, List.append_nil,
              List.singleton_append] at hin
            exact ⟨owner, lt_size_of_mem_rightSides mem, before, after,
              howner.trans hin⟩
          · have hput := howner.context front (.terminal t :: back)
            have hdrop := (derives_nil_of_vanishes hnull).context
              (front ++ before ++ [.nonterminal n]) (.terminal t :: back)
            simp only [List.append_assoc, List.nil_append,
              List.cons_append] at hput hdrop
            exact ⟨a, ha, front ++ before, back, by
              rw [List.append_assoc]
              exact (hd.trans hput).trans hdrop⟩

end Descent.Analysis
