import Mathlib.Logic.Relation
import PhoebusBsp.Igmp.Framing
import PhoebusBsp.Igmp.Setup
import PhoebusBsp.Igmp.View

/-! The parts of a report: a join, or one record.

        refused                             the checks stop it
        opened ── no entry for the client   the group is there
               └─ entered                   so is the client, with its sources worked on
        unknown                             nothing to block: the flows are computed again
        worked                              the sources of a client that is there

    `Part db makes db'` says what the part may have made of the state, and with what it was let through.
    A relation between states is then checked for these five outcomes, not along the handlers. -/

namespace PhoebusBsp.Igmp
open Schemes List

/-! ### Sources -/

/-- What calls for the sources of client `c` make of its entries and of the pool. -/
inductive SourceMoves (c : ℕ) : List Call → List ℕ × List ℕ → List ℕ × List ℕ → Prop
  | refl {x : List ℕ × List ℕ} : SourceMoves c [] x x
  | new {calls : List Call} {l pool : List ℕ} {a : ℕ} {x : List ℕ × List ℕ} :
    SourceMoves c calls (a :: l, pool) x → SourceMoves c (.newSource c :: calls) (l, a :: pool) x
  | delete {calls : List Call} {pre post pool : List ℕ} {a : ℕ} {x : List ℕ × List ℕ} :
    SourceMoves c calls (pre ++ post, a :: pool) x →
      SourceMoves c (.deleteSource c a :: calls) (pre ++ a :: post, pool) x

/-- The entries of the sources and of the pool. -/
def Sources.ids (s : Sources) : List ℕ × List ℕ := (s.sourceList.map SourceEntry.id, s.sourcePool)

/-- Entries have gone from the pool to the front and back, by these calls. -/
def Moved (c : ℕ) (calls : List Call) (s s' : Sources) : Prop := SourceMoves c calls s.ids s'.ids

/-- Entries have gone from the pool to the front. -/
def Draws (c : ℕ) (s s' : Sources) : Prop :=
  s'.sourcePool.length ≤ s.sourcePool.length ∧ Moved c (newSourceCalls c s s') s s'

section Sources

variable {s s' s'' : Sources} {v : IpVersion} {a : Ip} {c : ℕ} {calls calls' : List Call}

theorem withSources_nil {t : Tables} : t.withSources t.sourcePool [] = t := by
  rw [Tables.withSources, append_nil]

theorem Moved.of_eq (h : s'.ids = s.ids) : Moved c [] s s' := by
  unfold Moved
  rw [h]
  exact .refl

theorem SourceMoves.trans {x y z : List ℕ × List ℕ} (h : SourceMoves c calls x y)
    (h' : SourceMoves c calls' y z) : SourceMoves c (calls ++ calls') x z := by
  induction h with
  | refl => exact h'
  | new _ ih => exact .new (ih h')
  | delete _ ih => exact .delete (ih h')

theorem Moved.trans (h : Moved c calls s s') (h' : Moved c calls' s' s'') : Moved c (calls ++ calls') s s'' :=
  SourceMoves.trans h h'

theorem draws_of_eq (h : s'.ids = s.ids) : Draws c s s' := by
  have hpool : s'.sourcePool = s.sourcePool := congrArg Prod.snd h
  refine ⟨hpool.symm ▸ le_rfl, ?_⟩
  rw [newSourceCalls, hpool, Nat.sub_self]
  exact .of_eq h

theorem Draws.trans (h : Draws c s s') (h' : Draws c s' s'') : Draws c s s'' := by
  refine ⟨h'.1.trans h.1, ?_⟩
  have hcalls : newSourceCalls c s s'' = newSourceCalls c s s' ++ newSourceCalls c s' s'' := by
    have hle := h.1
    have hle' := h'.1
    rw [newSourceCalls, newSourceCalls, newSourceCalls, replicate_append_replicate]
    congr 1
    omega
  rw [hcalls]
  exact h.2.trans h'.2

theorem ids_modify {f : SourceEntry → SourceEntry} (hf : ∀ e, (f e).id = e.id) : (s.modify v a f).ids = s.ids :=
  Prod.ext (Chain.map_update fun e _ => hf e) rfl

theorem ids_map {f : SourceEntry → SourceEntry} (hf : ∀ e, (f e).id = e.id) :
    Sources.ids ⟨s.sourceList.map f, s.sourcePool⟩ = s.ids := by
  rw [Sources.ids, Sources.ids, map_map]
  exact Prod.ext (congrArg (List.map · s.sourceList) (funext hf)) rfl

theorem draws_addThen {timer : UInt32} {turn : Turn} : Draws c s (s.addThen v a timer turn).2 := by
  obtain ⟨l, pool⟩ := s
  cases pool with
  | nil => exact draws_of_eq rfl
  | cons id pool =>
    refine ⟨Nat.le_succ _, ?_⟩
    have hone : newSourceCalls c ⟨l, id :: pool⟩ (Sources.addThen ⟨l, id :: pool⟩ v a timer turn).2 =
        [.newSource c] := by
      show List.replicate (pool.length + 1 - pool.length) _ = _
      rw [Nat.add_sub_cancel_left]
      rfl
    rw [hone]
    exact .new .refl

/-- Entries are deleted from the front on. -/
theorem moved_delete (keep : SourceEntry → Bool) :
    Moved c (deleteSourceCalls c (s.sourceList.filter fun e => !keep e)) s (s.delete keep) := by
  suffices H : ∀ (l : List SourceEntry) (pre pool : List ℕ),
      SourceMoves c (deleteSourceCalls c (l.filter fun e => !keep e)) (pre ++ l.map SourceEntry.id, pool)
        (pre ++ (l.filter keep).map SourceEntry.id,
          (l.filter fun e => !keep e).foldl (fun pool e => e.id :: pool) pool) from
    H s.sourceList [] s.sourcePool
  intro l
  induction l with
  | nil => exact fun _ _ => .refl
  | cons e l ih =>
    intro pre pool
    cases hkeep : keep e with
    | true =>
      have hrest := ih (pre ++ [e.id]) pool
      rw [append_assoc, append_assoc, singleton_append, singleton_append] at hrest
      rw [filter_cons_of_pos hkeep, filter_cons_of_neg (by simp [hkeep])]
      exact hrest
    | false =>
      have hdrop : (e :: l).filter keep = l.filter keep := filter_cons_of_neg (by simp [hkeep])
      rw [hdrop, filter_cons_of_pos (by simp [hkeep])]
      exact .delete (ih pre (e.id :: pool))

theorem moved_deleteSourceList {l : List SourceEntry} {pool : List ℕ} :
    Moved c (deleteSourceCalls c l) ⟨l, pool⟩ (Sources.deleteSourceList ⟨l, pool⟩) := by
  have hall : (l.filter fun _ => !false) = l := filter_true ..
  have hmoved := moved_delete (c := c) (s := ⟨l, pool⟩) fun _ => false
  rwa [hall] at hmoved

/-- A loop takes entries as its turns do. -/
theorem draws_sweep {body : Ip → Sources → Turn × Sources} (hbody : ∀ a s, Draws c s (body a s).2) (n : ℕ)
    (l : List Ip) : Draws c s (sweep body n l s).2 :=
  sweep_keeps (P := Draws c s) (fun a _ s' h => h.trans (hbody a s')) n (draws_of_eq rfl)

end Sources

/-! ### Records -/

/-- What a record leaves of a client: its entry, its key and its port. -/
def ClientEntry.place (v : IpVersion) (c : ClientEntry) : ℕ × (Ip × Mac) × UInt32 :=
  (c.id, clientKey v c, c.inIfidx)

/-- The outcome is the client with other sources, for which entries were moved. -/
structure Works (v : IpVersion) (c : ClientEntry) (pool : List ℕ) (out : Outcome) : Prop where
  place : out.client.place v = c.place v
  moved : Moved c.id out.calls ⟨c.sourceList, pool⟩ ⟨out.client.sourceList, out.sourcePool⟩

theorem Works.id {v : IpVersion} {c : ClientEntry} {pool : List ℕ} {out : Outcome} (h : Works v c pool out) :
    out.client.id = c.id := congrArg Prod.fst h.place

theorem Works.key {v : IpVersion} {c : ClientEntry} {pool : List ℕ} {out : Outcome} (h : Works v c pool out) :
    clientKey v out.client = clientKey v c := congrArg (fun p => p.2.1) h.place

theorem Works.port {v : IpVersion} {c : ClientEntry} {pool : List ℕ} {out : Outcome} (h : Works v c pool out) :
    out.client.inIfidx = c.inIfidx := congrArg (fun p => p.2.2) h.place

/-- What a turn may do about a source: change its entry, leave the sources alone, or link one that is not recorded. -/
inductive Touched (v : IpVersion) (a : Ip) (s : Sources) : Turn × Sources → Prop
  | changed {turn : Turn} {f : SourceEntry → SourceEntry} (hturn : turn ≠ .stop)
    (hf : ∀ e, (f e).id = e.id ∧ (f e).sourceAddr = e.sourceAddr) : Touched v a s (turn, s.modify v a f)
  | same {turn : Turn} (hturn : turn ≠ .stop) : Touched v a s (turn, s)
  | linked {turn : Turn} {timer : UInt32} (hturn : turn ≠ .stop) (hnew : searchSourceEntry v a s.sourceList = none) :
    Touched v a s (s.addThen v a timer turn)

/-- A loop over the listed sources, from those of the client on, marked or not. -/
inductive Looped (v : IpVersion) (srcList : List Ip) (c : ClientEntry) (pool : List ℕ) : Outcome → Prop
  | mk {body : Ip → Sources → Turn × Sources} {g : SourceEntry → SourceEntry} {l : List SourceEntry}
    {after : ClientEntry → Sources → ClientEntry × Sources} (hbody : ∀ a s, Touched v a s (body a s))
    (hg : ∀ e, (g e).id = e.id ∧ (g e).sourceAddr = e.sourceAddr) (hl : l = c.sourceList.map g)
    (hplace : ∀ s, (after c s).1.place v = c.place v)
    (hrest : ∀ s, (after c s).2 = s ∨ (after c s).2 = s.deleteMarked) :
    Looped v srcList c pool (walk body srcList c ⟨l, pool⟩ after)

/-- What a record does to the client. -/
def coreOf (now : UInt32) (v : IpVersion) (conf : DevConf) (srcList : List Ip) :
    RecordType → ClientEntry → List ℕ → Outcome
  | .isInclude => isInclude now v conf srcList
  | .isExclude => isExclude now v conf srcList
  | .toInclude => toInclude now v conf srcList
  | .toExclude => toExclude now v conf srcList
  | .allow => allow now v conf srcList
  | .block => block now v conf srcList

section Records

variable {now filter timer : UInt32} {v : IpVersion} {conf : DevConf} {srcList : List Ip} {c : ClientEntry}
  {pool : List ℕ} {a : Ip} {s : Sources} {x : Turn × Sources} {out : Outcome}

theorem touched_includeSource : Touched v a s (includeSource v timer a s) := by
  unfold includeSource
  split
  · exact .changed nofun fun _ => ⟨rfl, rfl⟩
  · next hnew => exact .linked nofun hnew

theorem touched_toIncludeSource : Touched v a s (toIncludeSource v timer a s) := by
  unfold toIncludeSource
  split
  · exact .changed nofun fun _ => ⟨rfl, rfl⟩
  · next hnew => exact .linked nofun hnew

theorem touched_isExcludeSource : Touched v a s (isExcludeSource now filter v timer a s) := by
  unfold isExcludeSource
  split
  · split
    · refine .changed nofun fun e => ?_
      split <;> exact ⟨rfl, rfl⟩
    · exact .changed nofun fun _ => ⟨rfl, rfl⟩
  · next hnew => exact .linked nofun hnew

theorem touched_toExcludeSource : Touched v a s (toExcludeSource now filter v a s) := by
  have hflag : ∀ turn, turn ≠ .stop → Touched v a s (turn, s.modify v a (.setFlag false)) :=
    fun _ hturn => .changed hturn fun _ => ⟨rfl, rfl⟩
  unfold toExcludeSource
  split
  · dsimp only
    split
    · split <;> exact hflag _ nofun
    · exact hflag _ nofun
  · next hnew => split <;> exact .linked nofun hnew

theorem touched_blockSource {fastLeave : Bool} : Touched v a s (blockSource now filter fastLeave v a s) := by
  have htimer : ∀ turn, turn ≠ .stop → Touched v a s (turn, if fastLeave then s.modify v a (.setTimer now) else s) := by
    intro turn hturn
    cases fastLeave with
    | false => exact .same hturn
    | true => exact .changed hturn fun _ => ⟨rfl, rfl⟩
  unfold blockSource
  split
  · dsimp only
    split
    · split <;> exact htimer _ nofun
    · exact htimer _ nofun
  · next hnew =>
    split
    · exact .linked nofun hnew
    · exact .same nofun

theorem Touched.draws (h : Touched v a s x) {c : ℕ} : Draws c s x.2 := by
  cases h with
  | changed _ hf => exact draws_of_eq (ids_modify fun e => (hf e).1)
  | same _ => exact draws_of_eq rfl
  | linked _ _ => exact draws_addThen

/-- With fast leave some records link their sources anew; all others go through the sources that are there. -/
theorem coreOf_cases (type : RecordType) :
    (conf.fastLeave = true ∧ (type = .isInclude ∨ type = .toInclude) ∧
      coreOf now v conf srcList type c pool = fastInclude now v conf srcList c pool) ∨
    Looped v srcList c pool (coreOf now v conf srcList type c pool) := by
  have hallow : Looped v srcList c pool (allow now v conf srcList c pool) :=
    .mk (g := id) (fun _ _ => touched_includeSource) (fun _ => ⟨rfl, rfl⟩) (map_id _).symm (fun _ => rfl)
      fun _ => Or.inl rfl
  have hmark : ∀ {body : Ip → Sources → Turn × Sources}, (∀ a s, Touched v a s (body a s)) →
      Looped v srcList c pool (walk body srcList c (Sources.markAll ⟨c.sourceList, pool⟩) (exclude now conf)) :=
    fun hbody => .mk (g := .setFlag true) hbody (fun _ => ⟨rfl, rfl⟩) rfl (fun _ => rfl) fun _ => Or.inr rfl
  cases type with
  | isInclude =>
    rw [coreOf, isInclude]
    split
    · next hfast => exact Or.inl ⟨hfast, Or.inl rfl, rfl⟩
    · exact Or.inr hallow
  | toInclude =>
    rw [coreOf, toInclude]
    split
    · next hfast => exact Or.inl ⟨hfast, Or.inr rfl, rfl⟩
    · exact Or.inr (.mk (g := .capTimer now (now + conf.lastMemberAgingInterval)) (fun _ _ => touched_toIncludeSource)
        (fun _ => ⟨rfl, rfl⟩) rfl (fun _ => rfl) fun _ => Or.inl rfl)
  | isExclude => exact Or.inr (hmark fun _ _ => touched_isExcludeSource)
  | toExclude => exact Or.inr (hmark fun _ _ => touched_toExcludeSource)
  | allow => exact Or.inr hallow
  | block =>
    rw [coreOf, block]
    exact Or.inr (.mk (g := id) (fun _ _ => touched_blockSource) (fun _ => ⟨rfl, rfl⟩) (map_id _).symm
      (fun _ => rfl) fun _ => Or.inl rfl)

/-- What a walk does to a client that starts from these sources. -/
theorem walk_moved (srcList : List Ip) (c : ClientEntry) (s : Sources) {body : Ip → Sources → Turn × Sources}
    (after : ClientEntry → Sources → ClientEntry × Sources) (hbody : ∀ a s, Draws c.id s (body a s).2)
    (hplace : ∀ s, (after c s).1.place v = c.place v)
    (hrest : ∀ s, (after c s).2 = s ∨ (after c s).2 = s.deleteMarked) :
    (walk body srcList c s after).client.place v = c.place v ∧ Moved c.id (walk body srcList c s after).calls s
      ⟨(walk body srcList c s after).client.sourceList, (walk body srcList c s after).sourcePool⟩ := by
  have hloop := (draws_sweep (s := s) hbody srcList.length srcList).2
  unfold walk
  rcases hrun : sweep body srcList.length srcList s with ⟨ok, s'⟩
  rw [hrun] at hloop
  cases ok with
  | false => exact ⟨rfl, hloop⟩
  | true =>
    have hend : Moved c.id (deleteSourceCalls c.id (s'.sourceList.filter (· ∉ (after c s').2.sourceList))) s'
        (after c s').2 := by
      rcases hrest s' with h | h
      · rw [h, filter_eq_nil_iff.mpr fun e he => by simpa using he]
        exact .of_eq rfl
      · have hgone : s'.sourceList.filter (· ∉ s'.deleteMarked.sourceList) =
            s'.sourceList.filter fun e => !!e.setOpFlag :=
          filter_congr fun e he => by simp [Sources.deleteMarked, Sources.delete, he]
        rw [h, hgone]
        exact moved_delete _
    exact ⟨hplace s', hloop.trans hend⟩

theorem Looped.works (h : Looped v srcList c pool out) : Works v c pool out := by
  cases h with
  | @mk body g l after hbody hg hl hplace hrest =>
    subst hl
    have hsame : Moved c.id [] ⟨c.sourceList, pool⟩ ⟨c.sourceList.map g, pool⟩ :=
      .of_eq (ids_map (s := ⟨c.sourceList, pool⟩) fun e => (hg e).1)
    obtain ⟨hkept, hmoved⟩ := walk_moved srcList c ⟨c.sourceList.map g, pool⟩ after
      (fun a s => (hbody a s).draws) hplace hrest
    exact ⟨hkept, hsame.trans hmoved⟩

theorem works_coreOf (type : RecordType) : Works v c pool (coreOf now v conf srcList type c pool) := by
  rcases @coreOf_cases now v conf srcList c pool type with ⟨-, -, heq⟩ | hloop
  · rw [heq]
    have hbody : ∀ a s, Draws c.id s (relinkSource v (now + conf.memberAgingInterval) a s).2 :=
      fun _ _ => draws_addThen
    obtain ⟨hkept, hmoved⟩ := walk_moved (v := v) srcList { c with groupFilterTimer := now }
      (Sources.deleteSourceList ⟨c.sourceList, pool⟩) Prod.mk hbody (fun _ => rfl) fun _ => Or.inl rfl
    exact ⟨hkept, moved_deleteSourceList.trans hmoved⟩
  · exact hloop.works

theorem works_join {pkt : PktHdr} {version : IgmpVersion} :
    Works v c pool (joinCore now pkt version conf c pool) := by
  refine ⟨rfl, ?_⟩
  have hnone : Sources.deleteSourceList ⟨c.sourceList, pool⟩ =
      ⟨[], (Sources.deleteSourceList ⟨c.sourceList, pool⟩).sourcePool⟩ := by
    rw [Sources.deleteSourceList, Sources.delete, filter_false]
  have hdelete : Moved c.id _ ⟨c.sourceList, pool⟩ _ := moved_deleteSourceList
  rw [hnone] at hdelete
  exact hdelete

end Records

/-! ### The checks -/

section Checks

variable {db : Db} {dev : DevInfo} {pkt : PktHdr} {v : IpVersion} {c g : Ip}

/-- The checks of a join and of a record differ in the white list. They change counters only, and let
    pass what the limits let pass. -/
theorem checks_spec (white : Net → Bool) {x : Nf × Db}
    (hx : (if reserved db.net v g then (.accept, db)
      else
        match groupLimitCheck db.net db.tables dev pkt.moduleIndex v g c pkt.devIfindex .drop with
        | (.cont, net) =>
          if white net then (.cont, { db with net := net }) else (.drop, { db with net := net })
        | (ret, net) => (ret, { db with net := net })) = x) :
    ∃ net, Steady db.net net ∧ x.2 = { db with net := net } ∧ (x.1 = .cont →
      (groupLimitCheck db.net db.tables dev pkt.moduleIndex v g c pkt.devIfindex .drop).1 = .cont) := by
  have hlimit := groupLimitCheck_steady db.net db.tables dev pkt.moduleIndex v g c pkt.devIfindex .drop
  subst hx
  split
  · exact ⟨db.net, .same, rfl, nofun⟩
  · split
    · next net heq =>
      rw [heq] at hlimit ⊢
      split <;> exact ⟨net, hlimit, rfl, fun _ => rfl⟩
    · next ret net _ heq =>
      rw [heq] at hlimit ⊢
      exact ⟨net, hlimit, rfl, id⟩

theorem checkReport_spec (db : Db) (dev : DevInfo) (pkt : PktHdr) (v : IpVersion) (c g : Ip)
    (mcSource : Option Ip) :
    ∃ net, Steady db.net net ∧ (checkReport db dev pkt v c g mcSource).2 = { db with net := net } ∧
      ((checkReport db dev pkt v c g mcSource).1 = .cont →
        (groupLimitCheck db.net db.tables dev pkt.moduleIndex v g c pkt.devIfindex .drop).1 = .cont) :=
  checks_spec (fun net => filterWhiteListCheck net dev v true g c mcSource pkt.smac) rfl

theorem checkJoin_spec (db : Db) (dev : DevInfo) (pkt : PktHdr) (v : IpVersion) (c g : Ip) :
    ∃ net, Steady db.net net ∧ (checkJoin db dev pkt v c g).2 = { db with net := net } ∧
      ((checkJoin db dev pkt v c g).1 = .cont →
        (groupLimitCheck db.net db.tables dev pkt.moduleIndex v g c pkt.devIfindex .drop).1 = .cont) :=
  checks_spec (fun net => filterWhiteListCheck net dev v false g c none pkt.smac) rfl

theorem checkReport_tables {mcSource : Option Ip} :
    (checkReport db dev pkt v c g mcSource).2.tables = db.tables := by
  obtain ⟨net, -, hdb, -⟩ := checkReport_spec db dev pkt v c g mcSource
  rw [hdb]

theorem checkJoin_tables : (checkJoin db dev pkt v c g).2.tables = db.tables := by
  obtain ⟨net, -, hdb, -⟩ := checkJoin_spec db dev pkt v c g
  rw [hdb]

end Checks

/-! ### The parts -/

/-- The limits let the client pass, and count it. -/
def Passed (dev : DevInfo) (pkt : PktHdr) (v : IpVersion) (c g : Ip) (db : Db) (net : Net) : Prop :=
  Steady db.net net ∧
    (groupLimitCheck db.net db.tables dev pkt.moduleIndex v g c pkt.devIfindex .drop).1 = .cont

/-- What becomes of the state; `makes`: the part makes entries. -/
inductive Part (dev : DevInfo) (pkt : PktHdr) (v : IpVersion) (c g : Ip) (db : Db) : Bool → Db → Prop
  | refused {makes : Bool} {net : Net} : Steady db.net net → Part dev pkt v c g db makes { db with net := net }
  | opened {net : Net} {t : Tables} : Passed dev pkt v c g db net →
    openGroup db.tables pkt.moduleIndex v g = some t →
    Part dev pkt v c g db true { db with net := net, tables := t }
  | entered {net : Net} {t t' : Tables} {e : ClientEntry} {timer : UInt32} {out : Outcome} :
    Passed dev pkt v c g db net → openGroup db.tables pkt.moduleIndex v g = some t →
    openClient db.clock.now pkt v g c timer t = some (e, t') → Works v e t'.sourcePool out →
    Part dev pkt v c g db true (finish { db with net := net, tables := t' } pkt v g out).2
  | unknown {net : Net} : Passed dev pkt v c g db net →
    Part dev pkt v c g db false ({ db with net := net }.reflush (addr v g))
  | worked {net : Net} {e : ClientEntry} {out : Outcome} : Passed dev pkt v c g db net →
    clientOf db.tables pkt.moduleIndex v g c pkt.smac = some e →
    Works v (e.seen pkt) db.tables.sourcePool out →
    Part dev pkt v c g db false (finish { db with net := net } pkt v g out).2

section Parts

variable {db db' : Db} {dev : DevInfo} {pkt : PktHdr} {v : IpVersion} {c g : Ip} {makes : Bool}

theorem part_enter {net : Net} {timer : UInt32} {core : ClientEntry → List ℕ → Outcome}
    (hpass : Passed dev pkt v c g db net) (hcore : ∀ e pool, Works v e pool (core e pool)) :
    Part dev pkt v c g db true (enter { db with net := net } pkt v c g timer core).2 := by
  unfold enter
  split
  · exact .refused hpass.1
  · next t hopen =>
    split
    · exact .opened hpass hopen
    · next e t' hclient => exact .entered hpass hopen hclient (hcore e _)

theorem part_learn {mcSource : Option Ip} {timer : UInt32} {core : DevConf → ClientEntry → List ℕ → Outcome}
    (hcore : ∀ conf e pool, Works v e pool (core conf e pool)) :
    Part dev pkt v c g db true (learn db dev pkt v c g mcSource timer core).2 := by
  obtain ⟨net, hsteady, hdb, hlimit⟩ := checkReport_spec db dev pkt v c g mcSource
  rcases learn_cases db dev pkt v c g mcSource timer core with h | ⟨hcont, h⟩
  · rw [h, hdb]
    exact .refused hsteady
  · rw [h, hdb]
    refine part_enter ⟨hsteady, hlimit hcont⟩ fun e pool => ?_
    have hwork := hcore (dev.devConf v) (e.reported pkt v) pool
    exact ⟨hwork.place, hwork.moved⟩

theorem part_join {igmpv1 : Bool} : Part dev pkt v c g db true (processJoin db dev pkt v igmpv1 c g).2 := by
  obtain ⟨net, hsteady, hdb, hlimit⟩ := checkJoin_spec db dev pkt v c g
  rcases processJoin_cases db dev pkt v igmpv1 c g with h | ⟨hcont, h⟩
  · rw [h, hdb]
    exact .refused hsteady
  · rw [h, hdb]
    exact part_enter ⟨hsteady, hlimit hcont⟩ fun _ _ => works_join

theorem part_block {rec : GroupRecord} :
    Part dev pkt v c rec.groupAddr db false (processBlock db dev pkt v c rec).2 := by
  obtain ⟨net, hsteady, hdb, hlimit⟩ := checkReport_spec db dev pkt v c rec.groupAddr none
  have hcases := processBlock_cases db dev pkt v c rec
  rw [hdb] at hcases
  rcases hcases with h | ⟨hcont, ⟨-, h⟩ | ⟨e, he, h⟩⟩
  · rw [h]
    exact .refused hsteady
  · rw [h]
    exact .unknown ⟨hsteady, hlimit hcont⟩
  · rw [h]
    have hwork : Works v { e.seen pkt with igmpVersion := reportVersion v } db.tables.sourcePool
      (block db.clock.now v (dev.devConf v) rec.srcList { e.seen pkt with igmpVersion := reportVersion v }
        db.tables.sourcePool) := works_coreOf .block
    exact .worked ⟨hsteady, hlimit hcont⟩ he ⟨hwork.place, hwork.moved⟩

theorem part_handle {r : Reporter} {rec : GroupRecord} (type : RecordType) :
    Part r.dev r.pkt v r.clientAddr rec.groupAddr db (type ≠ .block) (handle r v rec db type).2 := by
  cases type with
  | isInclude => exact part_learn fun _ _ _ => works_coreOf .isInclude
  | isExclude => exact part_learn fun _ _ _ => works_coreOf .isExclude
  | toInclude => exact part_learn fun _ _ _ => works_coreOf .toInclude
  | toExclude => exact part_learn fun _ _ _ => works_coreOf .toExclude
  | allow => exact part_learn fun _ _ _ => works_coreOf .allow
  | block => exact part_block

/-- The entry that is found or made belongs to the client. -/
theorem Part.acts (h : Part dev pkt v c g db makes db') :
    Acts pkt.moduleIndex v g (addr v c, pkt.smac) db.tables db'.tables := by
  cases h with
  | refused _ => exact .of_eq rfl
  | opened _ hopen => exact acts_openGroup hopen
  | @entered net t t' e _ _ _ hopen hclient hwork =>
    obtain ⟨hkey, hacts⟩ := openClient_acts (searchGroupEntry_openGroup hopen).1 hclient
    exact ((acts_openGroup hopen).trans hacts).trans
      (finish_acts { db with net := net, tables := t' } (hwork.key.trans hkey))
  | unknown _ => exact .of_eq rfl
  | @worked net e _ _ he hwork =>
    rw [clientOf_eq] at he
    have hkey : clientKey v e = (addr v c, pkt.smac) := Chain.key_of_search he
    exact finish_acts { db with net := net } (hwork.key.trans hkey)

end Parts

end PhoebusBsp.Igmp
