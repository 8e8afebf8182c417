import TrackFusion.Proofs.Displacement.Intakes
import TrackFusion.Proofs.Displacement.Rosters
import TrackFusion.Proofs.Node.Runs

/-!
# Runs of displaced nodes

A node only knows of times and places by what it is told. Told of everything at another time and
another place, it does the same there, whatever its tracks are called.

* `FrameLookup.Displaced`: frames whose place in the world is displaced.
* `Node.locate?_displace`, `pair?_displace`, `process?_displace`: one batch.
* `Node.processAll_displace`, `rounds_displace`: batches in order.
* `Node.call_displace`, `after_displace`: calls.
* `Node.runs_displace`: what follows for every run.
-/

namespace TrackFusion

variable {α : Type} [ExactScalar α] (δ : Displacement α)

/-- The other lookup knows the place of a frame in the world when the one does, and it is the
displaced place. -/
def FrameLookup.Displaced (world : String) (frames frames' : FrameLookup α) : Prop :=
  ∀ source t, frames' source world (t.displace δ) =
    (frames source world t).map (Isometry.displace δ)

def Publication.displace (p : Publication α) : Publication α :=
  ⟨p.confirmed.displace δ, p.tentative?.map (Message.displace δ)⟩

/-! ### Batches -/

theorem Detection.moved_displace (m : Isometry α) (d : Detection α) :
    d.moved (m.displace δ) = (d.moved m).displace δ := by
  simp only [moved, Isometry.displace_apply]
  rfl

theorem Batch.inFrame?_displace {world : String} {frames frames' : FrameLookup α}
    (h : frames.Displaced δ world frames') (b : Batch α) :
    (b.transport δ world).inFrame? world frames' =
      (b.inFrame? world frames).map (displace δ) := by
  by_cases hb : b.frame = world
  · have hframe : (b.displace δ).frame = world := hb
    rw [transport, if_pos hb, inFrame?, inFrame?, if_pos hframe, if_pos hb]
    rfl
  · rw [transport, if_neg hb, inFrame?, inFrame?, if_neg hb, if_neg hb, h, Option.map_map,
      Option.map_map]
    refine congrArg (fun f => Option.map f (frames b.frame world b.stamp)) (funext fun m => ?_)
    have hmoved : Detection.moved (m.displace δ) = Detection.displace δ ∘ Detection.moved m :=
      funext (Detection.moved_displace δ m)
    simp only [Function.comp_apply, displace, hmoved, List.map_map]

namespace Node

/-- The node in the displaced world. -/
def displace (frames' : FrameLookup α) (ids' : IdStream) (n : Node α) : Node α :=
  { n with
    intake := n.intake.displace δ n.settings.worldFrame
    roster := n.roster.displace δ ids'
    frames := frames'
    lastPublished := n.lastPublished.displace δ }

def Call.displace (world : String) : Call α → Call α
  | .push channel b now => .push channel (b.transport δ world) (now.displace δ)
  | .trigger now => .trigger (now.displace δ)
  | .tick now => .tick (now.displace δ)
  | .process b => .process (b.transport δ world)
  | .publish now => .publish (now.displace δ)

section

variable {frames' : FrameLookup α} {ids' : IdStream} (n : Node α)

theorem pair?_displace (b : Batch α) :
    (n.displace δ frames' ids').pair? (b.displace δ) = n.pair? b := by
  show (Association.assign n.association.solver (n.association.scores (b.displace δ)
    (n.roster.tracks.map (Track.displace δ)))).toOption = _
  rw [Association.assign_displace]
  rfl

theorem publicationAt_displace (now : Time α) :
    (n.displace δ frames' ids').publicationAt (now.displace δ) =
      (n.publicationAt now).displace δ := by
  have hconfirmed : (n.roster.displace δ ids').confirmedAt (now.displace δ) = _ :=
    n.roster.confirmedAt_displace δ now
  have htentative : (n.roster.displace δ ids').tentativeAt (now.displace δ) = _ :=
    n.roster.tentativeAt_displace δ now
  simp only [publicationAt, displace, hconfirmed, htentative, Publication.displace,
    Message.displace]
  split <;> rfl

theorem publish_displace (now : Time α) :
    (n.displace δ frames' ids').publish (now.displace δ) =
      ((n.publish now).1.displace δ frames' ids', (n.publish now).2.displace δ) := by
  have hnode : ((n.displace δ frames' ids').publish (now.displace δ)).1 =
      (n.publish now).1.displace δ frames' ids' := by
    simp only [publish, displace, Roster.prune_displace]
  refine Prod.ext hnode ?_
  show ((n.displace δ frames' ids').publish (now.displace δ)).1.publicationAt (now.displace δ) = _
  rw [hnode, publicationAt_displace]
  rfl

/-- What no call changes about where a node is, and about the names that its tracks will have. -/
structure Settled (world : String) (frames : FrameLookup α) (ids : IdStream) (n : Node α) :
    Prop where
  world : n.settings.worldFrame = world
  frames : n.frames = frames
  ids : n.roster.ids.stream = ids

variable {world : String} {frames : FrameLookup α} {ids : IdStream} {n} {n' : Node α}

theorem Settled.process (h : n.Settled world frames ids) {b : Batch α}
    (hb : n.process? b = some n') : n'.Settled world frames ids := by
  obtain ⟨ego, seen, p, -, -, rfl⟩ := process?_cases hb
  refine ⟨h.world, h.frames, ?_⟩
  rw [Roster.absorb_eq]
  exact h.ids

theorem Settled.getD_process (h : n.Settled world frames ids) (b : Batch α) :
    ((n.process? b).getD n).Settled world frames ids := by
  cases hb : n.process? b with
  | none => exact h
  | some n' => exact h.process hb

theorem Settled.processAll (h : n.Settled world frames ids) (bs : List (Batch α)) :
    (n.processAll bs).1.Settled world frames ids :=
  processAll_induction (fun _ _ _ _ hb hm => hm.process hb) h

theorem Settled.call (h : n.Settled world frames ids) (c : Call α) :
    (n.call c).1.Settled world frames ids :=
  call_induction (P := Settled world frames ids) (fun _ _ hm => ⟨hm.world, hm.frames, hm.ids⟩)
    (fun _ _ _ hb hm => hm.process hb) (fun _ _ hm => ⟨hm.world, hm.frames, hm.ids⟩) h c

theorem Settled.after (h : n.Settled world frames ids) (calls : List (Call α)) :
    (n.after calls).Settled world frames ids :=
  after_induction (fun _ c _ hm => hm.call c) h

theorem Settled.rounds (h : n.Settled world frames ids) {bs : List (Batch α)} :
    ∀ q ∈ n.rounds bs, q.1.Settled world frames ids := by
  induction bs generalizing n with
  | nil => exact fun q hq => absurd hq List.not_mem_nil
  | cons b bs ih =>
    intro q hq
    rcases List.mem_cons.1 hq with rfl | hq
    · exact h
    · exact ih (h.getD_process b) q hq

theorem Settled.callRounds (h : n.Settled world frames ids) {c : Call α} {q : Node α × Batch α}
    (hq : q ∈ n.callRounds c) : q.1.Settled world frames ids := by
  have hdrain : ∀ now, q ∈ n.drainRounds now → q.1.Settled world frames ids := fun now hq =>
    Settled.rounds (n := { n with intake := (n.intake.release now).2 })
      ⟨h.world, h.frames, h.ids⟩ q hq
  cases c with
  | push channel b now => cases hq
  | trigger now => exact hdrain now hq
  | tick now =>
    rw [Node.callRounds] at hq
    split at hq
    · exact hdrain now hq
    · cases hq
  | process b =>
    rw [List.mem_singleton.1 hq]
    exact h
  | publish now => cases hq

variable (hframes : frames.Displaced δ world frames') (hids : ids.Renamed δ ids')
  (hn : n.Settled world frames ids)

include hframes hn

theorem locate?_displace (b : Batch α) :
    (n.displace δ frames' ids').locate? (b.transport δ world) =
      (n.locate? b).map (Prod.map (Isometry.displace δ) (Batch.displace δ)) := by
  obtain ⟨rfl, rfl, rfl⟩ := hn
  show ((frames' n.settings.egoFrame n.settings.worldFrame
      (b.transport δ n.settings.worldFrame).stamp).bind fun ego =>
    ((b.transport δ n.settings.worldFrame).inFrame? n.settings.worldFrame frames').bind
      fun seen => some (ego, seen)) = _
  rw [Batch.transport_stamp, hframes, Batch.inFrame?_displace δ hframes, locate?]
  cases n.frames n.settings.egoFrame n.settings.worldFrame b.stamp with
  | none => rfl
  | some ego => cases b.inFrame? n.settings.worldFrame n.frames <;> rfl

include hids

/-- **A displaced batch does the same to a displaced node**, and it is skipped alike. -/
theorem process?_displace (b : Batch α) :
    (n.displace δ frames' ids').process? (b.transport δ world) =
      (n.process? b).map (displace δ frames' ids') := by
  rw [process?, process?, locate?_displace δ hframes hn]
  cases n.locate? b with
  | none => rfl
  | some l =>
    obtain ⟨ego, seen⟩ := l
    have hnames : n.roster.ids.stream.Renamed δ ids' := hn.ids ▸ hids
    show ((n.displace δ frames' ids').pair? (seen.displace δ)).bind (fun p => some
      { n.displace δ frames' ids' with
        roster := ((n.roster.displace δ ids').absorb (seen.displace δ) (ego.displace δ) p).prune
          (b.transport δ world).stamp }) = _
    rw [pair?_displace, Batch.transport_stamp]
    simp only [Roster.absorb_displace δ seen ego hnames, Roster.prune_displace]
    cases hp : n.pair? seen with
    | none => simp [hp]
    | some p =>
      simp only [hp, Option.bind_some, Option.bind_eq_bind, Option.pure_def, Option.map_some]
      rfl

theorem processAll_displace (bs : List (Batch α)) :
    (n.displace δ frames' ids').processAll (bs.map (Batch.transport δ world)) =
      ((n.processAll bs).1.displace δ frames' ids', (n.processAll bs).2.map (Time.displace δ)) := by
  -- from the end, as the stamp of the last batch that is not skipped is answered
  induction bs using List.reverseRecOn with
  | nil => rfl
  | append_singleton bs b ih =>
    rw [List.map_append, List.map_singleton, processAll_concat, processAll_concat, ih,
      process?_displace δ hframes hids (hn.processAll bs)]
    cases (n.processAll bs).1.process? b with
    | none => rfl
    | some n' => simp only [Option.map_some, Batch.transport_stamp]

theorem rounds_displace (bs : List (Batch α)) :
    (n.displace δ frames' ids').rounds (bs.map (Batch.transport δ world)) =
      (n.rounds bs).map (Prod.map (displace δ frames' ids') (Batch.transport δ world)) := by
  induction bs generalizing n with
  | nil => rfl
  | cons b bs ih =>
    rw [List.map_cons, rounds, rounds, List.map_cons, process?_displace δ hframes hids hn,
      Option.getD_map, ih (hn.getD_process b)]
    rfl

omit hframes hids in
/-- **A displaced node releases the same batches**, and is left displaced. -/
theorem release_displace (now : Time α) :
    ((n.displace δ frames' ids').intake.release (now.displace δ)).1.batches =
        (n.intake.release now).1.batches.map (Batch.transport δ world) ∧
      ({ n.displace δ frames' ids' with
          intake := ((n.displace δ frames' ids').intake.release (now.displace δ)).2 } : Node α) =
        displace δ frames' ids' { n with intake := (n.intake.release now).2 } := by
  obtain ⟨rfl, rfl, rfl⟩ := hn
  have hrelease : (n.displace δ frames' ids').intake.release (now.displace δ) = _ :=
    n.intake.release_displace δ n.settings.worldFrame now
  rw [hrelease]
  exact ⟨rfl, rfl⟩

theorem drain_displace (now : Time α) :
    (n.displace δ frames' ids').drain (now.displace δ) =
      ((n.drain now).1.displace δ frames' ids', (n.drain now).2.map (Time.displace δ)) := by
  have hsettled : Settled world frames ids { n with intake := (n.intake.release now).2 } :=
    ⟨hn.world, hn.frames, hn.ids⟩
  rw [drain, drain, (release_displace δ hn now).1, (release_displace δ hn now).2,
    processAll_displace δ hframes hids hsettled]

theorem drainRounds_displace (now : Time α) :
    (n.displace δ frames' ids').drainRounds (now.displace δ) =
      (n.drainRounds now).map (Prod.map (displace δ frames' ids') (Batch.transport δ world)) := by
  have hsettled : Settled world frames ids { n with intake := (n.intake.release now).2 } :=
    ⟨hn.world, hn.frames, hn.ids⟩
  rw [drainRounds, drainRounds, (release_displace δ hn now).1, (release_displace δ hn now).2,
    rounds_displace δ hframes hids hsettled]

omit hframes hids hn

theorem overdue_displace (now : Time α) :
    (n.displace δ frames' ids').overdue (now.displace δ) = n.overdue now := by
  simp only [overdue, displace, Time.displace_sub_displace]

theorem rested_displace (now : Time α) :
    (n.displace δ frames' ids').rested (now.displace δ) = n.rested now := by
  simp only [rested, displace, Time.displace_sub_displace]

include hframes hids hn

/-- **A displaced call does the same to a displaced node**, and what it publishes is displaced. -/
theorem call_displace (c : Call α) :
    (n.displace δ frames' ids').call (c.displace δ world) =
      ((n.call c).1.displace δ frames' ids', (n.call c).2.map (Publication.displace δ)) := by
  have hpublish : ∀ (m : Node α) now, (m.displace δ frames' ids').call (.publish (now.displace δ)) =
      ((m.call (.publish now)).1.displace δ frames' ids',
        (m.call (.publish now)).2.map (Publication.displace δ)) := by
    intro m now
    rw [call, call, publish_displace]
    rfl
  cases c with
  | push channel b now =>
    obtain ⟨rfl, rfl, rfl⟩ := hn
    have hpush := n.intake.push?_displace δ n.settings.worldFrame b now channel
    show (((((n.intake.displace δ n.settings.worldFrame).push? channel
      (b.transport δ n.settings.worldFrame) (now.displace δ)).map fun m =>
        { n.displace δ frames' ids' with intake := m }).getD (n.displace δ frames' ids')), none) = _
    rw [hpush, call, push?]
    cases n.intake.push? channel b now <;> rfl
  | trigger now =>
    have hempty : ((n.displace δ frames' ids').intake.release (now.displace δ)).1.batches.isEmpty =
        (n.intake.release now).1.batches.isEmpty := by
      rw [(release_displace δ hn now).1, List.isEmpty_map]
    rw [Call.displace, call, call, trigger_eq, trigger_eq, hempty,
      drain_displace δ hframes hids hn]
    generalize n.drain now = q
    obtain ⟨m, last⟩ := q
    have hsettings : (m.displace δ frames' ids').settings = m.settings := rfl
    -- which way to a publication is taken depends on the settings and on ages only
    simp only [rested_displace, hpublish, hsettings]
    split
    · rfl
    · split
      · cases last with
        | none => rfl
        | some t => exact Prod.ext rfl (congrArg some (publicationAt_displace δ m t))
      · split <;> rfl
  | tick now =>
    rw [Call.displace, call, call, tick_eq, tick_eq, overdue_displace,
      drain_displace δ hframes hids hn]
    split
    · exact hpublish _ now
    · rfl
  | process b =>
    rw [Call.displace, call, call, process?_displace δ hframes hids hn, Option.getD_map]
    rfl
  | publish now => exact hpublish n now

theorem callRounds_displace (c : Call α) :
    (n.displace δ frames' ids').callRounds (c.displace δ world) =
      (n.callRounds c).map (Prod.map (displace δ frames' ids') (Batch.transport δ world)) := by
  cases c with
  | push channel b now => rfl
  | trigger now => exact drainRounds_displace δ hframes hids hn now
  | tick now =>
    rw [Call.displace, callRounds, callRounds, overdue_displace,
      drainRounds_displace δ hframes hids hn]
    split <;> rfl
  | process b => rfl
  | publish now => rfl

theorem after_displace (calls : List (Call α)) :
    (n.displace δ frames' ids').after (calls.map (Call.displace δ world)) =
      (n.after calls).displace δ frames' ids' := by
  induction calls using List.reverseRecOn with
  | nil => rfl
  | append_singleton calls c ih =>
    rw [List.map_append, List.map_singleton, after_append, after_append, ih, after_singleton,
      after_singleton, call_displace δ hframes hids (hn.after calls)]

end

/-! ### Runs -/

theorem ofSettings_displace [Json.Number α] (s : Settings α) (frames frames' : FrameLookup α)
    (start : Time α) (ids ids' : IdStream) :
    ofSettings s frames' (start.displace δ) ids' =
      (ofSettings s frames start ids).map (displace δ frames' ids') := by
  rw [ofSettings, ofSettings, Intake.ofSettings_displace δ s.worldFrame]
  cases s.check with
  | error e => rfl
  | ok u =>
    cases Intake.ofSettings s.channels s.window start with
    | error e => rfl
    | ok m => cases Association.ofSettings s.association <;> rfl

/-- What a node decides about a batch is decided alike in the displaced world: whether it is
skipped, which detections belong to which tracks, which of them start tracks, and which tracks are
left at last. -/
structure Alike (world : String) (frames' : FrameLookup α) (ids' : IdStream) (n : Node α)
    (b : Batch α) : Prop where
  located : (n.displace δ frames' ids').locate? (b.transport δ world) =
    (n.locate? b).map (Prod.map (Isometry.displace δ) (Batch.displace δ))
  paired : ∀ seen, (n.displace δ frames' ids').pair? (seen.displace δ) = n.pair? seen
  started : ∀ (seen : Batch α) (p : Pairing), Roster.unmatched (seen.displace δ) p.reverse =
    (Roster.unmatched seen p.reverse).map (Detection.displace δ)
  absorbed : ∀ (seen : Batch α) (ego : Isometry α) (p : Pairing),
    (n.displace δ frames' ids').roster.absorb (seen.displace δ) (ego.displace δ) p =
      (n.roster.absorb seen ego p).displace δ ids'
  pruned : ∀ (seen : Batch α) (ego : Isometry α) (p : Pairing),
    ((n.displace δ frames' ids').roster.absorb (seen.displace δ) (ego.displace δ) p).prune
        (b.stamp.displace δ) =
      ((n.roster.absorb seen ego p).prune b.stamp).displace δ ids'
  processed : (n.displace δ frames' ids').process? (b.transport δ world) =
    (n.process? b).map (displace δ frames' ids')

theorem alike {world : String} {frames frames' : FrameLookup α} {ids ids' : IdStream}
    (hframes : frames.Displaced δ world frames') (hids : ids.Renamed δ ids') {n : Node α}
    (hn : n.Settled world frames ids) (b : Batch α) : n.Alike δ world frames' ids' b := by
  have hnames : n.roster.ids.stream.Renamed δ ids' := hn.ids ▸ hids
  exact
    { located := locate?_displace δ hframes hn b
      paired := n.pair?_displace δ
      started := fun seen p => Roster.unmatched_displace δ seen p.reverse
      absorbed := fun seen ego p => Roster.absorb_displace δ seen ego hnames p
      pruned := fun seen ego p => by
        rw [← Roster.prune_displace, ← Roster.absorb_displace δ seen ego hnames]
        rfl
      processed := process?_displace δ hframes hids hn b }

/-- **The same happens at any other time and place, under any other names.** Told of everything at
another time and another place, a node that starts with the same settings starts alike, takes in
what it is told alike, decides alike about every batch, and publishes the same, at the other time
and place. The names that its tracks are given may be any others. Everything else about a track is
as it was: its counts, its classes, its shape, its heading, its velocity, and how uncertain they
are. -/
theorem runs_displace [Json.Number α] (s : Settings α) (frames frames' : FrameLookup α)
    (hframes : frames.Displaced δ s.worldFrame frames') (ids ids' : IdStream)
    (hids : ids.Renamed δ ids') (start : Time α) :
    ofSettings s frames' (start.displace δ) ids' =
        (ofSettings s frames start ids).map (displace δ frames' ids') ∧
      ∀ n, ofSettings s frames start ids = .ok n → ∀ (calls : List (Call α)) (c : Call α),
        let n₁ := n.after calls
        let n₂ := (n.displace δ frames' ids').after (calls.map (Call.displace δ s.worldFrame))
        n₂ = n₁.displace δ frames' ids' ∧
        (n₂.call (c.displace δ s.worldFrame)).1 = (n₁.call c).1.displace δ frames' ids' ∧
        (n₂.call (c.displace δ s.worldFrame)).2 =
          (n₁.call c).2.map (Publication.displace δ) ∧
        n₂.callRounds (c.displace δ s.worldFrame) = (n₁.callRounds c).map
          (Prod.map (displace δ frames' ids') (Batch.transport δ s.worldFrame)) ∧
        ∀ q ∈ n₁.callRounds c, q.1.Alike δ s.worldFrame frames' ids' q.2 := by
  refine ⟨ofSettings_displace δ s frames frames' start ids ids', fun n hn calls c => ?_⟩
  have hstart : n.Settled s.worldFrame frames ids := by
    obtain ⟨-, -, -, hs, hr, hf, -⟩ := ofSettings_cases hn
    exact ⟨by rw [hs], hf, by rw [hr]; rfl⟩
  have hsettled := hstart.after calls
  have hafter := after_displace δ hframes hids hstart calls
  have hcall := call_displace δ hframes hids hsettled c
  simp only [hafter]
  refine ⟨trivial, by rw [hcall], by rw [hcall], callRounds_displace δ hframes hids hsettled c,
    fun q hq => alike δ hframes hids (hsettled.callRounds hq) q.2⟩

/-- Every other name of those that are counted. -/
def everyOther : IdStream where
  nth k := IdStream.counting.nth (2 * k + 1)
  nth_inj := by
    intro m n h
    have hodd := IdStream.counting.nth_inj h
    omega

/-- Two posts and a new one, ten seconds later, some metres away, and under other names. -/
theorem runs_displace_posts :
    ∃ (δ : Displacement ℚ) (frames' : FrameLookup ℚ) (n : Node ℚ) (p : Publication ℚ),
      (δ.time, δ.x, δ.y, δ.z) = (10, 5, -3, 1) ∧ IdStream.counting.Renamed δ everyOther ∧
      FrameLookup.Displaced δ (trusting (α := ℚ)).worldFrame still frames' ∧
      ofSettings trusting still ⟨0⟩ .counting = .ok n ∧
      ofSettings trusting frames' ⟨10⟩ everyOther = .ok (n.displace δ frames' everyOther) ∧
      ((n.after [.process twoPosts, .process nextPosts]).call (.publish ⟨1.3⟩)).2 = some p ∧
      (((n.displace δ frames' everyOther).after
        [.process (twoPosts.displace δ), .process (nextPosts.displace δ)]).call
        (.publish (Time.displace δ ⟨1.3⟩))).2 = some (p.displace δ) ∧
      (p.displace δ).confirmed.objects.map TrackedObject.id =
        [everyOther.nth 0, everyOther.nth 1, everyOther.nth 2] := by
  obtain ⟨name, hnames⟩ :=
    IdStream.exists_renamed (⟨10, 5, -3, 1, id⟩ : Displacement ℚ) .counting everyOther
  let δ : Displacement ℚ := ⟨10, 5, -3, 1, name⟩
  have hframes : FrameLookup.Displaced δ (trusting (α := ℚ)).worldFrame still
      (fun _ _ _ => some (Isometry.identity.displace δ)) := fun _ _ => rfl
  obtain ⟨n, hn⟩ := exists_ofSettings_trusting
  obtain ⟨hstart, hrun⟩ :=
    runs_displace δ trusting still _ hframes .counting everyOther hnames ⟨0⟩
  obtain ⟨-, -, hpublished, -⟩ :=
    hrun n hn [.process twoPosts, .process nextPosts] (.publish ⟨1.3⟩)
  rw [hn] at hstart
  have hlater : Time.displace δ ⟨0⟩ = ⟨10⟩ := congrArg Time.mk (zero_add 10)
  rw [hlater] at hstart
  refine ⟨δ, _, n, _, rfl, hnames, hframes, hn, hstart, rfl, hpublished, ?_⟩
  have hmap : ∀ l : List (TrackedObject ℚ), (l.map (TrackedObject.displace δ)).map
      TrackedObject.id = (l.map TrackedObject.id).map name := by
    intro l
    rw [List.map_map, List.map_map]
    rfl
  refine (hmap _).trans ((congrArg (List.map name) (published_posts hn)).trans ?_)
  simp only [List.map_cons, List.map_nil, hnames 0, hnames 1, hnames 2]

end Node

end TrackFusion
