import PhoebusBsp.Igmp.System

/-! The five changes that the handlers make to the tables.

        newGroup ─▶ linkClient ─▶ storeClient ⟲      deleteClient ─▶ freeGroup
                                   sources: new, delete

    `Evolves t t'` says that `t'` is reached by such changes. It is proved along the handlers once;
    an invariant of the tables is then checked change by change. -/

namespace PhoebusBsp.Igmp
open Schemes

/-! ### Groups -/

section Groups

variable {t t' : Tables} {i : ℕ} {v : IpVersion} {g : Ip}

/-- The bucket of the chain that a change replaces. -/
theorem setChain_other {tbl : ℕ → IpVersion → ℕ → List GroupEntry} {l : List GroupEntry} {j : ℕ}
    {w : IpVersion} {h : ℕ} (hne : (j, w, h) ≠ (i, v, hashAlgorithm v g)) :
    setChain tbl i v g l j w h = tbl j w h := by
  refine if_neg fun heq => hne ?_
  rw [heq.1, heq.2.1, heq.2.2]

end Groups

/-! ### The changes -/

/-- One change of the tables. -/
inductive Change : Tables → Tables → Prop
  /-- The group is there or gets an entry. -/
  | newGroup {t t' : Tables} {i : ℕ} {v : IpVersion} {g : Ip} : openGroup t i v g = some t' → Change t t'
  /-- An entry without clients is unlinked. -/
  | freeGroup {t : Tables} {i : ℕ} {v : IpVersion} {e e₀ : GroupEntry} :
    searchGroupEntry t i v e₀.groupAddr = some e → e.id = e₀.id → e.clientList = [] →
    Change t (t.freeGroup i v e₀)
  /-- A new client is linked. -/
  | linkClient {t : Tables} {i : ℕ} {v : IpVersion} {g : Ip} {e : GroupEntry} {c : ClientEntry}
    {pool : List ℕ} : searchGroupEntry t i v g = some e → t.clientPool = c.id :: pool →
    Chain.search (clientKey v) (clientKey v c) e.clientList = none → c.sourceList = [] →
    Change t ((t.takeClient i v g pool).modifyClients i v g (c :: ·))
  /-- The sources of a client are worked on. -/
  | storeClient {t : Tables} {i : ℕ} {v : IpVersion} {g : Ip} {c c' : ClientEntry} {pool : List ℕ}
    {calls : List Call} : c ∈ clientsAt t i v g → c'.id = c.id → clientKey v c' = clientKey v c →
    Moved c.id calls ⟨c.sourceList, t.sourcePool⟩ ⟨c'.sourceList, pool⟩ →
    Change t ((t.withSources pool calls).storeClient i v g c')
  /-- A client is deleted with its sources. -/
  | deleteClient {t : Tables} {i : ℕ} {v : IpVersion} {g : Ip} {c : ClientEntry} :
    c ∈ clientsAt t i v g → Change t (deleteClientEntry t i v g c)

theorem Change.unique {t t' : Tables} (h : Change t t') (hu : Unique t) : Unique t' := by
  cases h with
  | @newGroup _ i v g hopen =>
    have hacts : Acts i v g (addr v g, 0) t t' := acts_openGroup hopen
    exact hacts.unique hu
  | @freeGroup i v e e₀ he hid hempty =>
    intro j w g'
    by_cases hspot : spot j w g' = spot i v e₀.groupAddr
    · obtain ⟨rfl, rfl, hg⟩ := spot_inj.mp hspot
      rw [clientsAt_congr hg, clientsAt_freeGroup]
      exact List.nodup_nil
    · rw [frame_freeGroup.clientsAt hspot]
      exact hu j w g'
  | @linkClient i v g e c pool he hpool hnew hsources =>
    have hclients := clientsAt_modifyClients (t := t.takeClient i v g pool) (i := i) (v := v) (g := g)
      (f := (c :: ·)) (Or.inr (Option.isSome_iff_exists.mpr ⟨e, he⟩))
    have hacts : Acts i v g (clientKey v c) t ((t.takeClient i v g pool).modifyClients i v g (c :: ·)) := by
      refine ⟨frame_modifyClients, ?_⟩
      rw [hclients]
      exact only_cons rfl (clientsAt_of_search he ▸ hnew)
    exact hacts.unique hu
  | @storeClient i v g c c' pool calls hc hid hkey hmoved =>
    have hacts : Acts i v g (clientKey v c) t ((t.withSources pool calls).storeClient i v g c') :=
      (Acts.of_eq rfl : Acts i v g (clientKey v c) t (t.withSources pool calls)).trans (acts_storeClient hkey)
    exact hacts.unique hu
  | deleteClient hc => exact (acts_deleteClientEntry rfl).unique hu

/-- The changes lead from `t` to `t'`. A walk meets a client in its turn because no client is listed
    twice, so that is assumed of `t`. -/
def Evolves (t t' : Tables) : Prop := Unique t → Relation.ReflTransGen Change t t'

section Evolves

variable {t t' t'' : Tables}

theorem unique_of_changes (h : Relation.ReflTransGen Change t t') (hu : Unique t) : Unique t' := by
  induction h with
  | refl => exact hu
  | tail _ hchange ih => exact hchange.unique ih

theorem Evolves.refl : Evolves t t := fun _ => .refl

theorem Evolves.trans (h : Evolves t t') (h' : Evolves t' t'') : Evolves t t'' :=
  fun hu => (h hu).trans (h' (unique_of_changes (h hu) hu))

theorem Change.evolves (h : Change t t') : Evolves t t' := fun _ => .single h

/-- What every change keeps, the changes of a handler keep. -/
theorem Evolves.keeps {P : Tables → Prop} (hP : ∀ t t', Change t t' → Unique t → P t → P t')
    (h : Evolves t t') (hu : Unique t) (ht : P t) : P t' := by
  have hchanges := h hu
  clear h
  induction hchanges with
  | refl => exact ht
  | tail hsome hchange ih => exact hP _ _ hchange (unique_of_changes hsome hu) ih

end Evolves

end PhoebusBsp.Igmp
