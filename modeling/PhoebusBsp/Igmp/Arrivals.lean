import PhoebusBsp.Igmp.Lifetime

/-! Where clients come from. A client that is in the tables after a part of a report was there before at
    the same port, or is the client of the report, in its group and at its port.

        join, record    a new entry, or the old one at the port of the packet
        leave           the old entry at the port of the packet, or none
        any other event no new entries, and none at another port -/

namespace PhoebusBsp.Igmp
open Schemes

/-- The clients of the group are those from before and such at the port of the packet. -/
def Ported (pkt : PktHdr) (v : IpVersion) (g : Ip) (t t' : Tables) : Prop :=
  ∀ e ∈ clientsAt t' pkt.moduleIndex v g, e ∈ clientsAt t pkt.moduleIndex v g ∨ e.inIfidx = pkt.devIfindex

/-- Every client was there before at its port, or is the one of the packet. -/
def Arrives (pkt : PktHdr) (v : IpVersion) (g c : Ip) (t t' : Tables) : Prop :=
  ∀ j w g', ∀ e ∈ clientsAt t' j w g', e ∈ clientsAt t j w g' ∨
    (spot j w g' = spot pkt.moduleIndex v g ∧ clientKey v e = (addr v c, pkt.smac) ∧ e.inIfidx = pkt.devIfindex)

/-- Every client was there before, with the same key and at the same port. -/
def Stays (t t' : Tables) : Prop :=
  ∀ j w g, ∀ e' ∈ clientsAt t' j w g, ∃ e ∈ clientsAt t j w g, clientKey w e' = clientKey w e ∧ e'.inIfidx = e.inIfidx

section Ported

variable {pkt : PktHdr} {v : IpVersion} {c g : Ip} {t t' t'' : Tables} {db : Db} {dev : DevInfo} {e : ClientEntry}

theorem Ported.same : Ported pkt v g t t := fun _ he => Or.inl he

theorem Ported.trans (h : Ported pkt v g t t') (h' : Ported pkt v g t' t'') : Ported pkt v g t t'' :=
  fun e he => (h' e he).elim (h e) Or.inr

theorem ported_storeClient (he : e.inIfidx = pkt.devIfindex) :
    Ported pkt v g t (t.storeClient pkt.moduleIndex v g e) := by
  intro e' he'
  rw [clientsAt_storeClient rfl] at he'
  rcases Chain.mem_update he' with he' | ⟨-, -, -, rfl⟩
  · exact Or.inl he'
  · exact Or.inr he

theorem ported_openClient {now timer : UInt32} (hgroup : (searchGroupEntry t pkt.moduleIndex v g).isSome)
    (h : openClient now pkt v g c timer t = some (e, t')) : Ported pkt v g t t' := by
  obtain ⟨-, ⟨_, _, -, rfl⟩ | ⟨id, pool, -, -, rfl, rfl⟩⟩ := openClient_cases h
  · exact .same
  · intro e he
    rw [clientsAt_link hgroup] at he
    rcases List.mem_cons.mp he with rfl | he
    · exact Or.inr rfl
    · exact Or.inl he

theorem ported_finish (db : Db) {out : Outcome} (hout : out.client.inIfidx = pkt.devIfindex) :
    Ported pkt v g db.tables (finish db pkt v g out).2.tables := by
  have hpool : Ported pkt v g db.tables (db.tables.withSources out.sourcePool out.calls) := .same
  rw [finish_tables]
  exact hpool.trans (ported_storeClient hout)

theorem Part.ported {makes : Bool} {db' : Db} (h : Part dev pkt v c g db makes db') :
    Ported pkt v g db.tables db'.tables := by
  have hgroup : ∀ {t : Tables}, openGroup db.tables pkt.moduleIndex v g = some t → Ported pkt v g db.tables t :=
    fun hopen _ he => Or.inl ((searchGroupEntry_openGroup hopen).2 ▸ he)
  cases h with
  | refused _ => exact .same
  | opened _ hopen => exact hgroup hopen
  | @entered net _ t' _ _ _ _ hopen hclient hout =>
    refine ((hgroup hopen).trans (ported_openClient (searchGroupEntry_openGroup hopen).1 hclient)).trans ?_
    exact ported_finish { db with net := net, tables := t' } (hout.port.trans (openClient_port hclient))
  | unknown _ => exact .same
  | @worked net _ _ _ _ hout => exact ported_finish { db with net := net } hout.port

theorem ported_processLeave : Ported pkt v g db.tables (processLeave db dev pkt v c g).2.tables := by
  refine processLeave_holds .same (fun db' h e he => ?_) fun _ _ _ => ⟨fun e he => ?_, fun _ => ported_storeClient rfl⟩
  · rw [clientsAt_dropEmptyGroup] at he
    exact h e he
  · rw [clientsAt_deleteClientEntry] at he
    exact Or.inl (List.mem_of_mem_filter he)

end Ported

section Arrives

variable {pkt : PktHdr} {v : IpVersion} {c g : Ip} {t t' t'' : Tables} {db : Db} {dev : DevInfo}

theorem arrives_of_acts (hacts : Acts pkt.moduleIndex v g (addr v c, pkt.smac) t t') (hported : Ported pkt v g t t') :
    Arrives pkt v g c t t' := by
  intro j w g' e he
  by_cases hspot : spot j w g' = spot pkt.moduleIndex v g
  · obtain ⟨rfl, rfl, hg⟩ := spot_inj.mp hspot
    rw [clientsAt_congr hg] at he ⊢
    by_cases hkey : clientKey w e = (addr w c, pkt.smac)
    · exact (hported e he).imp_right fun hport => ⟨hspot, hkey, hport⟩
    · have hother : e ∈ (clientsAt t' pkt.moduleIndex w g).filter fun e => clientKey w e ≠ (addr w c, pkt.smac) :=
        List.mem_filter.mpr ⟨he, by simpa using hkey⟩
      rw [hacts.only.others] at hother
      exact Or.inl (List.mem_of_mem_filter hother)
  · rw [hacts.frame.clientsAt hspot] at he
    exact Or.inl he

theorem Part.arrives {makes : Bool} {db' : Db} (h : Part dev pkt v c g db makes db') :
    Arrives pkt v g c db.tables db'.tables := arrives_of_acts h.acts h.ported

theorem arrives_processLeave : Arrives pkt v g c db.tables (processLeave db dev pkt v c g).2.tables :=
  arrives_of_acts processLeave_acts ported_processLeave

theorem Walked.stays {G : IpVersion → GroupEntry → Option GroupEntry} {is : List ℕ} (hG : Thinning G)
    (h : Walked G is t t') : Stays t t' := by
  intro j w g e' he'
  by_cases hj : j ∈ is
  · obtain ⟨ge', hge', he'⟩ := group_of_client he'
    rw [h.done j hj] at hge'
    obtain ⟨ge, hge, hthin⟩ := Option.bind_eq_some_iff.mp hge'
    obtain ⟨e, he, rfl | ⟨now, rfl⟩⟩ := hG.clients w ge ge' hthin e' he'
    · exact ⟨e', clientsAt_of_search hge ▸ he, rfl, rfl⟩
    · exact ⟨e, clientsAt_of_search hge ▸ he, rfl, rfl⟩
  · rw [h.clientsAt_same hj] at he'
    exact ⟨e', he', rfl, rfl⟩

end Arrives

end PhoebusBsp.Igmp
