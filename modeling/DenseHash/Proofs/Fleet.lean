import DenseHash.Proofs.Container.Stored
import DenseHash.Proofs.Iter

/-!
# Iterators and their clones are decks

Of a container with any history, an iterator is used like a deck with the entries in traversal order, and so is each of its
clones, whichever of them is called when (`iterators_are_decks`). So what is handed out at the front and at the back are
the two ends of the traversal, which meet and never overlap.

A fleet runs in the same way whatever its members are. So one relation that every use keeps is kept by all calls
(`Fleet.run_related`), and a member that is not used stays as it is (`Fleet.run_apart`).
-/

namespace DenseHash

namespace Fleet

variable {ρ σ τ : Type} {use : Move → σ → Checked (ρ × σ)} {use' : Move → τ → Checked (ρ × τ)} {R : σ → τ → Prop}
  {fleet fleet' : List σ} {other : List τ} {call : Call} {calls : List Call} {n : Nat} {s : σ}

/-! ## Two fleets -/

/-- Related members show the same when they are used, and stay related. -/
def Keeps (R : σ → τ → Prop) (use : Move → σ → Checked (ρ × σ)) (use' : Move → τ → Checked (ρ × τ)) : Prop :=
  ∀ move s t, R s t → ∃ reading s' t', use move s = .ok (reading, s') ∧ use' move t = .ok (reading, t') ∧ R s' t'

/-- One call: a member is used, cloned, or there is none. -/
theorem step_related (huse : Keeps R use use') (h : List.Forall₂ R fleet other) (call : Call) :
    ∃ reading fleet' other', step use call fleet = .ok (reading, fleet') ∧ step use' call other = .ok (reading, other') ∧
      List.Forall₂ R fleet' other' := by
  cases call with
  | use n move =>
      rcases forall₂_getElem?_cases h n with ⟨hn, hn'⟩ | ⟨s, t, hn, hn', hst⟩
      · refine ⟨none, fleet, other, ?_, ?_, h⟩
        · rw [step, hn]
        · rw [step, hn']
      · obtain ⟨reading, s', t', hs, ht, hst'⟩ := huse move s t hst
        refine ⟨some reading, fleet.set n s', other.set n t', ?_, ?_, forall₂_set h n hst'⟩
        · rw [step, hn]
          dsimp only
          rw [hs]
          rfl
        · rw [step, hn']
          dsimp only
          rw [ht]
          rfl
  | clone n =>
      rcases forall₂_getElem?_cases h n with ⟨hn, hn'⟩ | ⟨s, t, hn, hn', hst⟩
      · refine ⟨none, fleet, other, ?_, ?_, h⟩
        · rw [step, hn]
        · rw [step, hn']
      · refine ⟨none, fleet ++ [s], other ++ [t], ?_, ?_, List.rel_append h (.cons hst .nil)⟩
        · rw [step, hn]
        · rw [step, hn']

/-- Related fleets show the same whatever is called, and stay related. -/
theorem run_related (huse : Keeps R use use') (h : List.Forall₂ R fleet other) (calls : List Call) :
    ∃ readings fleet' other', run use calls fleet = .ok (readings, fleet') ∧
      run use' calls other = .ok (readings, other') ∧ List.Forall₂ R fleet' other' := by
  induction calls generalizing fleet other with
  | nil => exact ⟨[], fleet, other, rfl, rfl, h⟩
  | cons call calls ih =>
      obtain ⟨reading, fleet₁, other₁, hstep, hstep', h₁⟩ := step_related huse h call
      obtain ⟨readings, fleet₂, other₂, hrun, hrun', h₂⟩ := ih h₁
      refine ⟨reading :: readings, fleet₂, other₂, ?_, ?_, h₂⟩
      · rw [run, hstep, Checked.ok_bind]
        dsimp only
        rw [hrun]
        rfl
      · rw [run, hstep', Checked.ok_bind]
        dsimp only
        rw [hrun']
        rfl

/-! ## One member -/

/-- Using or cloning others, and cloning a member, leave it as it is. -/
theorem step_apart {reading : Option ρ} (hn : fleet[n]? = some s) (hcall : ∀ move, call ≠ .use n move)
    (hok : step use call fleet = .ok (reading, fleet')) : fleet'[n]? = some s := by
  cases call with
  | use m move =>
      have hne : m ≠ n := fun heq => hcall move (heq ▸ rfl)
      cases hm : fleet[m]? with
      | none =>
          rw [step, hm] at hok
          cases hok
          exact hn
      | some s' =>
          rw [step, hm] at hok
          obtain ⟨⟨reading', s''⟩, -, hok⟩ := Checked.bind_eq_ok hok
          cases hok
          rw [List.getElem?_set_ne hne, hn]
  | clone m =>
      cases hm : fleet[m]? with
      | none =>
          rw [step, hm] at hok
          cases hok
          exact hn
      | some s' =>
          rw [step, hm] at hok
          cases hok
          have hlt : n < fleet.length := (List.getElem?_eq_some_iff.mp hn).1
          rw [List.getElem?_append_left hlt, hn]

/-- A member that is not used stays as it is. -/
theorem run_apart {readings : List (Option ρ)} (hn : fleet[n]? = some s) (hcalls : ∀ move, Call.use n move ∉ calls)
    (hok : run use calls fleet = .ok (readings, fleet')) : fleet'[n]? = some s := by
  induction calls generalizing fleet readings with
  | nil =>
      cases hok
      exact hn
  | cons call calls ih =>
      obtain ⟨⟨reading, fleet₁⟩, hstep, hok⟩ := Checked.bind_eq_ok hok
      obtain ⟨⟨rest, fleet₂⟩, hrun, hok⟩ := Checked.bind_eq_ok hok
      cases hok
      have hn₁ := step_apart hn (fun move heq => hcalls move (heq ▸ List.mem_cons_self)) hstep
      exact ih hn₁ (fun move hmem => hcalls move (List.mem_cons_of_mem call hmem)) hrun

end Fleet

/-! ## Iterators -/

variable {K V α : Type}

/-- What an iterator has in common with a deck: together with what was taken from the two ends, what is left is the whole
    traversal, seen through the view; as many items are left as the iterator says; and when none is left, nothing comes
    from either end any more. -/
structure Iter.Deals [Backing] (view : K × V → α) (all : List α) (it : Iter K V) (deck : Deck α) : Prop where
  whole : deck.front ++ deck.rest ++ deck.back.reverse = all
  rest : ∃ ps, it.toList = .ok ps ∧ ps.map view = deck.rest
  remaining : it.remaining = all.length - (deck.front.length + deck.back.length)
  spent : deck.rest = [] → it.next = .ok (none, it) ∧ it.nextBack = .ok (none, it)

namespace Iter

variable [Backing] [BEq K] {hashing : Hashing K} {view : K × V → α} {all : List α} {it : Iter K V} {deck : Deck α}

/-- The iterator has a window, and the deck is what it makes of the traversal. -/
def Plays (hashing : Hashing K) (view : K × V → α) (all : List α) (it : Iter K V) (deck : Deck α) : Prop :=
  deck.whole = all ∧ ∃ as ws bs, it.Window hashing as ws bs ∧ deck = (it.deck as ws bs).map view

/-- A move of an iterator is the move of the deck that it plays. -/
theorem keeps_plays (hashing : Hashing K) (view : K × V → α) (all : List α) :
    Fleet.Keeps (Plays hashing view all) (Iter.use view) fun move deck => .ok (Deck.use move deck) := by
  rintro move it deck ⟨hwhole, as, ws, bs, hw, rfl⟩
  obtain ⟨it', as', ws', bs', huse, hw', hdeck⟩ := hw.use_eq view move
  have hmap := Deck.use_map view move (it.deck as ws bs)
  have hwhole' := (Deck.whole_use move ((it.deck as ws bs).map view)).trans hwhole
  rw [hmap] at hwhole'
  exact ⟨_, it', _, huse, congrArg Except.ok hmap, hwhole', as', ws', bs', hw', by rw [hdeck]⟩

/-- What an iterator plays is what it deals. -/
theorem Plays.deals (h : Plays hashing view all it deck) : Deals view all it deck := by
  obtain ⟨hwhole, as, ws, bs, hw, rfl⟩ := h
  refine ⟨hwhole, ⟨it.items ws, hw.toList_eq, rfl⟩, ?_, fun hspent => ?_⟩
  · have hlength := congrArg List.length hwhole
    simp only [Deck.whole, Deck.map, deck, List.length_append, List.length_reverse, List.length_map] at hlength ⊢
    rw [hw.remaining, ← hw.length_items]
    omega
  · obtain rfl : ws = [] := by
      have hlength := congrArg List.length hspent
      simp only [Deck.map, deck, List.length_map] at hlength
      exact List.length_eq_zero_iff.mp (hw.length_items ▸ hlength)
    exact ⟨hw.next_nil, hw.nextBack_nil⟩

/-- A new iterator plays the whole traversal. -/
theorem plays_start {s : Store K V} {slots : List Slot} (h : s.Sound hashing slots) (view : K × V → α) :
    Plays hashing view ((slots.filterMap s.held).map view) (start s) (.start ((slots.filterMap s.held).map view))  :=
  ⟨Deck.whole_start _, [], slots, [], window_start h, rfl⟩

end Iter

namespace Container

variable [BEq K] [EquivBEq K] {settings : Settings} {order : Order} {hashing : Hashing K} {owner : OwnerId}
  {events : List Event}

/-- Iterators over a container with any history are decks. Whatever is called on an iterator and its clones, in whatever
    order, shows what it shows of decks that begin with the whole traversal, and a clone begins with what was left; what is
    called on one of them does not concern the others. -/
theorem iterators_are_decks [Backing] {c d : Container K V} (horder : order.Fresh)
    (hmake : make settings order hashing owner = .ok c) (hreach : c.Reaches Any events d) (view : K × V → α)
    (calls : List Call) :
    ∃ ps readings its decks, d.store.inOrder = .ok ps ∧ Fleet.run (Iter.use view) calls [d.iter] = .ok (readings, its) ∧
      Fleet.run (fun move deck => .ok (Deck.use move deck)) calls [.start (ps.map view)] = .ok (readings, decks) ∧
        List.Forall₂ (Iter.Deals view (ps.map view)) its decks ∧
          ∀ n it, its[n]? = some it → ∀ later, (∀ move, Call.use n move ∉ later) → ∀ readings' its',
            Fleet.run (Iter.use view) later its = .ok (readings', its') → its'[n]? = some it := by
  obtain ⟨-, slots, ps, hshows⟩ := hreach.exists_shows horder hmake
  have hstart := Iter.plays_start hshows.sound view
  rw [hshows.pairs] at hstart
  obtain ⟨readings, its, decks, hrun, hrun', hplays⟩ :=
    Fleet.run_related (Iter.keeps_plays _ view (ps.map view)) (.cons hstart .nil) calls
  refine ⟨ps, readings, its, decks, ?_, hrun, hrun', hplays.imp fun it deck h => h.deals, ?_⟩
  · rw [hshows.sound.inOrder_eq, hshows.pairs]
  · intro n it hn later hlater readings' its' hok
    exact Fleet.run_apart hn hlater hok

/-- The keys of three entries in the order of use, two of them in one bucket. An iterator takes one from the front, is
    cloned, and takes one from the back; the clone goes on from the front to the end. -/
theorem iterators_are_decks_cloned :
    ∃ (c d : Container Nat Nat) (its : List (Iter Nat Nat)) (decks : List (Deck Nat)),
      make {} (.ofMode true) ⟨fun key => UInt64.ofNat (key % 2), ⟨fun _ _ => 0⟩⟩ 0 = .ok c ∧ c.Reaches Any [] d ∧
        Fleet.run (Iter.use Prod.fst)
          [.use 0 .front, .clone 0, .use 0 .back, .use 1 .front, .use 1 .front, .use 1 .front, .use 0 .length] [d.iter] =
            .ok ([some (.item (some 2)), none, some (.item (some 1)), some (.item (some 3)), some (.item (some 1)),
              some (.item none), some (.count 1)], its) ∧
          decks.map Deck.rest = [[3], []] ∧ List.Forall₂ (Iter.Deals Prod.fst [2, 3, 1]) its decks := by
  have hmake : (make {} (.ofMode true) ⟨fun key => UInt64.ofNat (key % 2), ⟨fun _ _ => 0⟩⟩ 0 :
      Except _ (Container Nat Nat)) = .ok _ := rfl
  have hreach : ((⟨⟨fun key => UInt64.ofNat (key % 2), ⟨fun _ _ => 0⟩⟩, .table (.empty (.ofMode true) .threeQuarters 0), 9,
      0, 0⟩ : Container Nat Nat)).Reaches Any [] _ :=
    .apply (.apply (.apply (.apply .start (.insert 1 10) trivial) (.insert 2 20) trivial) (.insert 3 30) trivial) (.get 1)
      trivial
  obtain ⟨ps, readings, its, decks, hps, hrun, hrun', hdeals, -⟩ := iterators_are_decks (.linked true) hmake hreach Prod.fst
    [.use 0 .front, .clone 0, .use 0 .back, .use 1 .front, .use 1 .front, .use 1 .front, .use 0 .length]
  obtain rfl : [(2, 20), (3, 30), (1, 10)] = ps := Except.ok.inj ((Eq.symm (by rfl)).trans hps)
  cases hrun'
  exact ⟨_, _, its, _, hmake, hreach, hrun, rfl, hdeals⟩

end Container

end DenseHash
