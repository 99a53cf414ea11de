import Mathlib.Data.List.Shortlex
import ProcessLogic.Proofs.Search.Outcome

/-!
# A breadth-first search finds states by their first words

Words are ordered by length, and words of one length by the first letter in which they differ. If
the letters are tried in their order, the trails of the states found come in the order of words, and
each is the first of all words that lead to its state. So the state that stops a search is met on
the first of all words that lead to such a state.
-/

namespace ProcessLogic.Search

variable {σ κ : Type}

section Words

variable {before : κ → κ → Prop} {u v w : List κ}

/-- A word is another or comes before it. -/
def NoLater (before : κ → κ → Prop) (u v : List κ) : Prop := u = v ∨ List.Shortlex before u v

theorem NoLater.refl (u : List κ) : NoLater before u u := Or.inl rfl

/-- The order of words by length and then by letters is transitive. -/
theorem shortlex_trans (hbefore : ∀ l m n, before l m → before m n → before l n)
    (huv : List.Shortlex before u v) (hvw : List.Shortlex before v w) :
    List.Shortlex before u w := by
  rw [List.shortlex_def] at *
  rcases huv with huv | ⟨huv, hlex⟩
  · omega
  · rcases hvw with hvw | ⟨hvw, hlex'⟩
    · omega
    · exact Or.inr ⟨huv.trans hvw, List.lex_trans (hbefore _ _ _) hlex hlex'⟩

theorem NoLater.trans (hbefore : ∀ l m n, before l m → before m n → before l n)
    (huv : NoLater before u v) (hvw : NoLater before v w) : NoLater before u w := by
  rcases huv with rfl | huv
  · exact hvw
  · rcases hvw with rfl | hvw
    · exact Or.inr huv
    · exact Or.inr (shortlex_trans hbefore huv hvw)

/-- Of two words only one comes before the other. -/
theorem NoLater.antisymm [Std.Asymm before] (huv : NoLater before u v)
    (hvu : NoLater before v u) : u = v := by
  rcases huv with rfl | huv
  · rfl
  · rcases hvu with rfl | hvu
    · rfl
    · exact absurd hvu (Std.Asymm.asymm u v huv)

/-- A word that is no later is no longer. -/
theorem NoLater.length_le (h : NoLater before u v) : u.length ≤ v.length := by
  rcases h with rfl | h
  · exact Nat.le_refl _
  · rcases List.shortlex_def.mp h with h | h <;> omega

/-- A difference in words of one length is not undone by what follows. -/
theorem lex_append (hlength : u.length = v.length) (h : List.Lex before u v) (x y : List κ) :
    List.Lex before (u ++ x) (v ++ y) := by
  induction h with
  | nil => exact nomatch hlength
  | cons _ ih => exact .cons (ih (Nat.succ.inj hlength))
  | rel hl => exact .rel hl

/-- Whatever letters follow, a word that comes before another still does. -/
theorem shortlex_concat (h : List.Shortlex before u v) (l m : κ) :
    List.Shortlex before (u ++ [l]) (v ++ [m]) := by
  rcases List.shortlex_def.mp h with hlt | ⟨hlength, hlex⟩
  · apply List.Shortlex.of_length_lt
    simpa using hlt
  · apply List.Shortlex.of_lex
    · simpa using hlength
    · exact lex_append hlength hlex [l] [m]

/-- An earlier last letter makes an earlier word. -/
theorem shortlex_concat_of_before {l m : κ} (h : before l m) (u : List κ) :
    List.Shortlex before (u ++ [l]) (u ++ [m]) :=
  ((List.shortlex_singleton_iff l m).mpr h).append_left u

/-- A word comes before those that it begins with one letter more. -/
theorem shortlex_concat_self (u : List κ) (l : κ) : List.Shortlex before u (u ++ [l]) := by
  apply List.Shortlex.of_length_lt
  simp

/-- One letter at the end of both words keeps their order. -/
theorem NoLater.concat (h : NoLater before u v) (l : κ) :
    NoLater before (u ++ [l]) (v ++ [l]) := by
  rcases h with rfl | h
  · exact .refl _
  · exact Or.inr (shortlex_concat h l l)

/-- Letters that stand for others are ordered as those are. -/
theorem NoLater.map {β : Type} {before : β → β → Prop} {f : κ → β}
    (h : NoLater (fun l m => before (f l) (f m)) u v) : NoLater before (u.map f) (v.map f) := by
  rcases h with rfl | h
  · exact .refl _
  · refine Or.inr ?_
    rcases List.shortlex_def.mp h with hlt | ⟨hlength, hlex⟩
    · apply List.Shortlex.of_length_lt
      simpa using hlt
    · apply List.Shortlex.of_lex
      · simpa using hlength
      · clear h hlength
        induction hlex with
        | nil => exact .nil
        | cons _ ih => exact .cons ih
        | rel hl => exact .rel hl

end Words

variable [BEq σ] [Hashable σ]

/-- The word on which state number `i` was found. -/
def word (search : Search σ κ) (i : Nat) : List κ := (search.trail i).reverse

/-- States found later have later words, and each word but the first is one letter longer than the
word of a state before number `source`. -/
structure InOrder (before : κ → κ → Prop) (source : Nat) (search : Search σ κ) : Prop where
  increasing : ∀ i j, i < j → j < search.found.size →
    List.Shortlex before (search.word i) (search.word j)
  parent : ∀ j < search.found.size, search.word j = [] ∨
    ∃ i < source, ∃ l, search.word j = search.word i ++ [l]

/-- The move from state number `i` by the letter `l` leads to a state that is found on no later
word. -/
def CoveredInOrder (before : κ → κ → Prop) (step : σ → κ → Option σ) (search : Search σ κ)
    (i : Nat) (l : κ) : Prop :=
  ∀ s t : σ, search.found.get? i = some s → step s l = some t →
    ∃ j, search.found.get? j = some t ∧ NoLater before (search.word j) (search.word i ++ [l])

variable {letters : List κ} {step : σ → κ → Option σ} {stop : σ → Bool} {limit : Nat} {s₀ : σ}
  {before : κ → κ → Prop} {search next : Search σ κ} {k source : Nat} {s t : σ} {l : κ}

/-- A later moment of a search keeps the words of what has been found. -/
theorem Grows.word_eq (hg : Grows search next) {i : Nat} (hi : i < search.found.size) :
    next.word i = search.word i := by
  rw [word, word, hg.trail i hi]

theorem CoveredInOrder.grows (h : CoveredInOrder before step search k l) (hg : Grows search next)
    (hk : k < search.found.size) : CoveredInOrder before step next k l := by
  intro s t hs ht
  obtain ⟨r, hr⟩ := Roster.exists_get?_of_lt hk
  obtain rfl : r = s := Option.some.inj ((hg.found k r hr).symm.trans hs)
  obtain ⟨j, hj, hword⟩ := h r t hr ht
  refine ⟨j, hg.found j t hj, ?_⟩
  rw [hg.word_eq (Roster.lt_size_of_get? hj), hg.word_eq hk]
  exact hword

/-- Words found from earlier states come before all words that go on from the next. -/
theorem InOrder.shortlex_concat (h : InOrder before source search)
    (hsource : source < search.found.size) {j : Nat} (hj : j < search.found.size) (l : κ) :
    List.Shortlex before (search.word j) (search.word source ++ [l]) := by
  rcases h.parent j hj with hnil | ⟨i, hi, m, hword⟩
  · rw [hnil]
    apply List.Shortlex.of_length_lt
    simp
  · rw [hword]
    exact Search.shortlex_concat (h.increasing i source hi hsource) m l

/-- Words that come from states before one come from states before any later one. -/
theorem InOrder.mono (h : InOrder before source search) {source' : Nat}
    (hle : source ≤ source') : InOrder before source' search where
  increasing := h.increasing
  parent j hj := by
    rcases h.parent j hj with hnil | ⟨i, hi, m, hword⟩
    · exact Or.inl hnil
    · exact Or.inr ⟨i, Nat.lt_of_lt_of_le hi hle, m, hword⟩

/-- The word of a new state is that of its source and one letter. -/
theorem Valid.word_discovered (hv : Valid letters step limit s₀ search) (k : Nat) (l : κ) (t : σ) :
    (search.discovered k l t).word search.found.size = search.word k ++ [l] := by
  rw [word, hv.trail_discovered, if_pos rfl, List.reverse_cons, word]

/-- A new state by a letter that makes a later word than all found so far keeps the order. -/
theorem InOrder.discovered (h : InOrder before (k + 1) search)
    (hv : Valid letters step limit s₀ search)
    (hahead : ∀ j < search.found.size, List.Shortlex before (search.word j) (search.word k ++ [l]))
    (hk : k < search.found.size) (hnew : search.found.rank? t = none) :
    InOrder before (k + 1) (search.discovered k l t) := by
  have hg := hv.grows_discovered k l t
  have hlast := hv.word_discovered k l t
  have hsize : (search.discovered k l t).found.size = search.found.size + 1 :=
    Roster.size_insert_of_rank?_eq_none hnew
  have hcases : ∀ j < (search.discovered k l t).found.size,
      j < search.found.size ∨ j = search.found.size := fun j hj => by omega
  constructor
  · intro i j hij hj
    rcases hcases j hj with hj | rfl
    · rw [hg.word_eq hj, hg.word_eq (by omega)]
      exact h.increasing i j hij hj
    · rw [hlast, hg.word_eq hij]
      exact hahead i hij
  · intro j hj
    rcases hcases j hj with hj | rfl
    · rw [hg.word_eq hj]
      rcases h.parent j hj with hnil | ⟨i, hi, m, hword⟩
      · exact Or.inl hnil
      · exact Or.inr ⟨i, hi, m, by rw [hword, hg.word_eq (by omega)]⟩
    · exact Or.inr ⟨k, Nat.lt_succ_self k, l, by rw [hlast, hg.word_eq hk]⟩

/-- A visit by such a letter keeps the order, and no word comes after the one it makes. -/
theorem InOrder.visit (h : InOrder before (k + 1) search) (hv : Valid letters step limit s₀ search)
    (hahead : ∀ j < search.found.size, List.Shortlex before (search.word j) (search.word k ++ [l]))
    (hk : search.found.get? k = some s) (ht : step s l = some t)
    (hvisit : search.visit limit k l t = some next) :
    InOrder before (k + 1) next ∧ CoveredInOrder before step next k l ∧
      ∀ j < next.found.size, NoLater before (next.word j) (next.word k ++ [l]) := by
  have hlt := Roster.lt_size_of_get? hk
  rcases visit_cases hvisit with ⟨i, hi, rfl⟩ | ⟨hnew, -, rfl⟩
  · have hit := hv.wellFormed.rank?_eq_some_iff.mp hi
    refine ⟨⟨h.increasing, h.parent⟩, ?_, fun j hj => Or.inr (hahead j hj)⟩
    intro s' t' hs' ht'
    obtain rfl := Option.some.inj (hk.symm.trans hs')
    obtain rfl := Option.some.inj (ht.symm.trans ht')
    exact ⟨i, hit, Or.inr (hahead i (Roster.lt_size_of_get? hit))⟩
  · have hg := hv.grows_discovered k l t
    have hlast := hv.word_discovered k l t
    refine ⟨h.discovered hv hahead hlt hnew, fun s' t' hs' ht' => ?_, fun j hj => ?_⟩
    · obtain rfl := Option.some.inj ((hg.found k s hk).symm.trans hs')
      obtain rfl := Option.some.inj (ht.symm.trans ht')
      refine ⟨search.found.size, ?_, ?_⟩
      · exact (Roster.get?_insert_of_rank?_eq_none hnew _).trans (if_pos rfl)
      · rw [hlast, hg.word_eq hlt]
        exact .refl _
    · rw [hg.word_eq hlt]
      by_cases hj' : j < search.found.size
      · rw [hg.word_eq hj']
        exact Or.inr (hahead j hj')
      · have hsize : (search.discovered k l t).found.size = search.found.size + 1 :=
          Roster.size_insert_of_rank?_eq_none hnew
        obtain rfl : j = search.found.size := by omega
        rw [hlast]
        exact .refl _

section Growth

variable [LawfulBEq σ]

theorem inOrder_start : InOrder before 0 (start s₀ : Search σ κ) := by
  have hsize : (start s₀ : Search σ κ).found.size = 1 := by
    rw [← Roster.length_toList]
    exact congrArg List.length (Roster.toList_ofList_singleton s₀)
  constructor
  · intro i j hij hj
    omega
  · intro j hj
    obtain rfl : j = 0 := by omega
    exact Or.inl rfl

/-- Trying letters in their order keeps the order of words. -/
theorem InOrder.expand (hbefore : ∀ l m n, before l m → before m n → before l n)
    {ls : List κ} (hls : ∀ l ∈ ls, l ∈ letters) (hsorted : ls.Pairwise before)
    (h : InOrder before (k + 1) search) (hv : Valid letters step limit s₀ search)
    (hn : Near k search)
    (hahead : ∀ j < search.found.size, ∀ l ∈ ls,
      List.Shortlex before (search.word j) (search.word k ++ [l]))
    (hk : search.found.get? k = some s) (he : search.expand ls step limit k s = some next) :
    InOrder before (k + 1) next ∧ ∀ l ∈ ls, CoveredInOrder before step next k l := by
  induction ls generalizing search with
  | nil =>
      obtain rfl : search = next := Option.some.inj he
      exact ⟨h, List.forall_mem_nil _⟩
  | cons l ls ih =>
      obtain ⟨hl, hls⟩ := List.forall_mem_cons.mp hls
      obtain ⟨hfirst, hsorted⟩ := List.pairwise_cons.mp hsorted
      cases ht : step s l with
      | none =>
          rw [expand_cons_of_eq_none ht] at he
          obtain ⟨hnext, hcovered⟩ := ih hls hsorted h hv hn
            (fun j hj m hm => hahead j hj m (List.mem_cons_of_mem l hm)) hk he
          refine ⟨hnext, List.forall_mem_cons.mpr ⟨fun s' t' hs' ht' => ?_, hcovered⟩⟩
          obtain ⟨-, hg, -, -⟩ := expand_spec hls hv hn hk he
          obtain rfl := Option.some.inj ((hg.found k s hk).symm.trans hs')
          rw [ht] at ht'
          exact nomatch ht'
      | some t =>
          rw [expand_cons_of_eq_some ht] at he
          obtain ⟨mid, hmid, he⟩ := Option.bind_eq_some_iff.mp he
          obtain ⟨hv', hg, hn', -⟩ := visit_spec hv hn hk hl ht hmid
          obtain ⟨hmid', hcovered, hbehind⟩ :=
            h.visit hv (fun j hj => hahead j hj l List.mem_cons_self) hk ht hmid
          have hk' := hg.found k s hk
          have hahead' : ∀ j < mid.found.size, ∀ m ∈ ls,
              List.Shortlex before (mid.word j) (mid.word k ++ [m]) := by
            intro j hj m hm
            have hlm := shortlex_concat_of_before (hfirst m hm) (mid.word k)
            rcases hbehind j hj with heq | hlt
            · rwa [heq]
            · exact shortlex_trans hbefore hlt hlm
          obtain ⟨hnext, hrest⟩ := ih hls hsorted hmid' hv' hn' hahead' hk' he
          obtain ⟨-, hg', -, -⟩ := expand_spec hls hv' hn' hk' he
          refine ⟨hnext, List.forall_mem_cons.mpr ⟨?_, hrest⟩⟩
          exact hcovered.grows hg' (Roster.lt_size_of_get? hk')

/-- The states before number `source` have been treated in the order of words. -/
structure TreatedInOrder (before : κ → κ → Prop) (letters : List κ) (step : σ → κ → Option σ)
    (source : Nat) (search : Search σ κ) : Prop extends InOrder before source search where
  coveredInOrder : ∀ i < source, ∀ l ∈ letters, CoveredInOrder before step search i l

/-- Expanding a state treats it in the order of words, if its letters stand in order. -/
theorem TreatedInOrder.succ (hbefore : ∀ l m n, before l m → before m n → before l n)
    (hsorted : letters.Pairwise before) (h : TreatedInOrder before letters step source search)
    (htreated : Treated letters step stop limit s₀ source search)
    (hs : search.found.get? source = some s)
    (he : search.expand letters step limit source s = some next) :
    TreatedInOrder before letters step (source + 1) next := by
  have hlt := Roster.lt_size_of_get? hs
  have hn := htreated.near hlt
  obtain ⟨-, hg, -, -⟩ := expand_spec (fun _ hl => hl) htreated.valid hn hs he
  obtain ⟨hnext, hcovered⟩ := InOrder.expand hbefore (fun _ hl => hl) hsorted
    (h.toInOrder.mono (Nat.le_succ source)) htreated.valid hn
    (fun j hj l _ => h.toInOrder.shortlex_concat hlt hj l) hs he
  refine ⟨hnext, fun i hi l hl => ?_⟩
  rcases Nat.lt_succ_iff_lt_or_eq.mp hi with hi | rfl
  · exact (h.coveredInOrder i hi l hl).grows hg (Nat.lt_trans hi hlt)
  · exact hcovered l hl

/-- A search treats all states in the order of words. -/
theorem TreatedInOrder.finished
    (hbefore : ∀ l m n, before l m → before m n → before l n)
    (hsorted : letters.Pairwise before) {fuel : Nat} {result : Search σ κ} {stopped : Option Nat}
    (h : TreatedInOrder before letters step source search)
    (htreated : Treated letters step stop limit s₀ source search)
    (hfuel : source + fuel = max 1 limit)
    (hrun : runFrom letters step stop limit fuel source search = some (result, stopped)) :
    TreatedInOrder before letters step (stopped.getD result.found.size) result := by
  induction fuel generalizing source search with
  | zero =>
      obtain ⟨rfl, rfl⟩ := Prod.mk.inj (Option.some.inj hrun)
      have hsize := (Roster.get?_eq_none_iff _ _).mp (htreated.get?_eq_none hfuel)
      rw [Option.getD_none, ← Nat.le_antisymm htreated.source_le hsize]
      exact h
  | succ fuel ih =>
      rcases runFrom_cases hrun with
        ⟨hnone, he⟩ | ⟨s, hs, ⟨-, he⟩ | ⟨-, -, he⟩ | ⟨next, hstop, hnext, hrest⟩⟩
      · obtain ⟨rfl, rfl⟩ := Prod.mk.inj (Option.some.inj he)
        have hsize := (Roster.get?_eq_none_iff _ _).mp hnone
        rw [Option.getD_none, ← Nat.le_antisymm htreated.source_le hsize]
        exact h
      · obtain ⟨rfl, rfl⟩ := Prod.mk.inj (Option.some.inj he)
        exact h
      · exact nomatch he
      · exact ih (h.succ hbefore hsorted htreated hs hnext) (htreated.succ hs hstop hnext)
          (by omega) hrest

/-- A search that is not refused has treated states in the order of their words. -/
theorem treatedInOrder_of_run (hbefore : ∀ l m n, before l m → before m n → before l n)
    (hsorted : letters.Pairwise before) {result : Search σ κ} {stopped : Option Nat}
    (h : run letters step stop limit s₀ = some (result, stopped)) :
    TreatedInOrder before letters step (stopped.getD result.found.size) result := by
  have hstart : TreatedInOrder before letters step 0 (start s₀ : Search σ κ) :=
    ⟨inOrder_start, fun i hi => absurd hi (Nat.not_lt_zero i)⟩
  exact hstart.finished hbefore hsorted treated_start (Nat.zero_add _) h

end Growth

/-- No word comes before that of a state treated to which it leads, or before that of some state
found and not yet treated. -/
theorem TreatedInOrder.found_or_frontier
    (hbefore : ∀ l m n, before l m → before m n → before l n)
    (h : TreatedInOrder before letters step source search)
    (hv : Valid letters step limit s₀ search) {trail : List κ}
    (hm : ∀ l ∈ trail, l ∈ letters) (hw : walk step s₀ trail.reverse = some t) :
    (∃ i < source, search.found.get? i = some t ∧
        NoLater before (search.word i) trail.reverse) ∨
      ∃ i, source ≤ i ∧ i < search.found.size ∧ NoLater before (search.word i) trail.reverse := by
  induction trail generalizing t with
  | nil =>
      obtain rfl := Option.some.inj hw
      have hfound := hv.found_start
      have hword : NoLater before (search.word 0) [] := by
        rw [word, hv.trail_start]
        exact .refl _
      by_cases hs : 0 < source
      · exact Or.inl ⟨0, hs, hfound, hword⟩
      · exact Or.inr ⟨0, by omega, Roster.lt_size_of_get? hfound, hword⟩
  | cons l trail ih =>
      rw [List.reverse_cons, walk_concat] at hw
      obtain ⟨s, hs, ht⟩ := Option.bind_eq_some_iff.mp hw
      obtain ⟨hl, hm⟩ := List.forall_mem_cons.mp hm
      rw [List.reverse_cons]
      rcases ih hm hs with ⟨i, hi, hfound, hword⟩ | ⟨i, hi, hlt, hword⟩
      · obtain ⟨j, hj, hjword⟩ := h.coveredInOrder i hi l hl s t hfound ht
        have hnolater := hjword.trans hbefore (hword.concat l)
        by_cases hjs : j < source
        · exact Or.inl ⟨j, hjs, hj, hnolater⟩
        · exact Or.inr ⟨j, by omega, Roster.lt_size_of_get? hj, hnolater⟩
      · refine Or.inr ⟨i, hi, hlt, hword.trans hbefore ?_⟩
        exact Or.inr (shortlex_concat_self _ l)

/-- The state that stops a search is met on the first of all words that lead to such a state. -/
theorem Finished.noLater_of_stop (hbefore : ∀ l m n, before l m → before m n → before l n)
    (hfinished : Finished letters step stop limit s₀ search (some k))
    (h : TreatedInOrder before letters step k search) {ls : List κ}
    (hm : ∀ l ∈ ls, l ∈ letters) (hw : walk step s₀ ls = some t) (ht : stop t = true) :
    NoLater before (search.word k) ls := by
  rw [← List.reverse_reverse ls] at hw ⊢
  have hm' : ∀ l ∈ ls.reverse, l ∈ letters := fun l hl => hm l (List.mem_reverse.mp hl)
  rcases h.found_or_frontier hbefore hfinished.valid hm' hw with
    ⟨i, hi, hfound, -⟩ | ⟨i, hi, hlt, hword⟩
  · rw [hfinished.passed i t hi hfound] at ht
    exact nomatch ht
  · rcases Nat.lt_or_eq_of_le hi with hi | rfl
    · exact NoLater.trans hbefore (Or.inr (h.increasing k i hi hlt)) hword
    · exact hword

end ProcessLogic.Search
