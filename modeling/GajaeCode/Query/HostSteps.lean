import GajaeCode.Query.Pins
import GajaeCode.Query.Handlers

/-! Every request changes the host by a few kinds of steps. What holds of the host after any requests, and what a
cursor keeps while others are served, is shown for each kind once. -/
namespace GajaeCode.Query

open Text Data

variable {α δ κ ν : Type}

def Answer.cursor : Answer α κ ν → Option κ
  | .page shown => shown.continuationCursor
  | .result _ => none
  | .error _ => none

/-- Where an item cursor points: the envelope names the resource and the selector its id. -/
def CursorEnvelope.PointsTo (envelope : CursorEnvelope ν) (key : JsStr) : Prop :=
  envelope.position.byteOffset = none →
    ∃ selector, envelope.position.selector = some selector ∧ key = resourceKey envelope.resource selector.resourceId

section

variable [DecidableEq δ] [DecidableEq κ]

/-- What one request can do to the host, given the cursor that its answer carries. -/
inductive HostStep (session : Session α δ κ ν) (event : Event α κ ν) (issued : Option κ) :
    Host α κ → Host α κ → Prop
  | access (host : Host α κ) (key id : JsStr) :
      HostStep session event issued host { host with revisions := (host.revisions.access key id event.now).2 }
  | create (host : Host α κ) (key : JsStr) (payload : Snapshot α) : HostStep session event issued host
        { host with revisions := (host.revisions.createRevision session.codec key payload event.now).2 }
  | release (host : Host α κ) (cursor : κ) (h : event.request.cursor = some cursor) :
      HostStep session event issued host (host.release cursor)
  | sweep (host : Host α κ) : HostStep session event issued host (host.sweep event.now)
  | issue (host : Host α κ) (envelope : CursorEnvelope ν) (kind resourceId : JsStr)
      (revisions : RevisionStore α κ) (hissued : issued = some (session.signer.sign envelope))
      (hpoints : envelope.PointsTo (resourceKey kind resourceId))
      (hsession : host.active.length < maxCursorsPerSession)
      (hconnection : host.cursorsOf event.request.connectionId < maxCursorsPerConnection)
      (hpin : host.revisions.pin (session.signer.sign envelope) (resourceKey kind resourceId) envelope.revision =
        some revisions) : HostStep session event issued host
        { revisions
          active := assocSet (session.signer.sign envelope)
            { connectionId := event.request.connectionId, resourceId, expiresAt := event.now + cursorTtlMs }
            host.active }

def HostSteps (session : Session α δ κ ν) (event : Event α κ ν) (issued : Option κ) :
    Host α κ → Host α κ → Prop :=
  Relation.ReflTransGen (HostStep session event issued)

def Stepped (session : Session α δ κ ν) (event : Event α κ ν) (host : Host α κ) (reply : Host α κ × Answer α κ ν) :
    Prop :=
  HostSteps session event reply.2.cursor host reply.1

variable {session : Session α δ κ ν} {event : Event α κ ν} {issued : Option κ} {host after : Host α κ}
  {reply : Host α κ × Answer α κ ν} {store revisions : RevisionStore α κ} {active : List (κ × ActiveCursor)}
  {key id : JsStr} {codec : SnapshotCodec α δ ν}

theorem Stepped.refl {answer} : Stepped session event host (host, answer) := Relation.ReflTransGen.refl

theorem HostSteps.answer (h : HostSteps session event reply.2.cursor host after)
    (hreply : Stepped session event after reply) : Stepped session event host reply :=
  h.trans hreply

theorem HostStep.steps (h : HostStep session event issued host after) : HostSteps session event issued host after :=
  Relation.ReflTransGen.single h

theorem access_steps (h : (store.access key id event.now).2 = revisions) :
    HostSteps session event issued ⟨store, active⟩ ⟨revisions, active⟩ := by
  rw [← h]
  exact (HostStep.access ⟨store, active⟩ key id).steps

theorem readPage_steps {offset page} (h : store.readPage codec key id offset event.now = (page, revisions)) :
    HostSteps session event issued ⟨store, active⟩ ⟨revisions, active⟩ := by
  apply access_steps
  rw [RevisionStore.readPage] at h
  split at h
  all_goals
    next haccess =>
    rw [haccess]
    exact congrArg Prod.snd h

theorem readRange_steps {reader} {range : Option (ByteRange ν)}
    (h : store.readRange reader key id event.now = (range, revisions)) :
    HostSteps session event issued ⟨store, active⟩ ⟨revisions, active⟩ :=
  access_steps (congrArg Prod.snd h : (store.access key id event.now).2 = revisions)

theorem revisionByteLength_steps {length}
    (h : store.revisionByteLength codec key id event.now = (length, revisions)) :
    HostSteps session event issued ⟨store, active⟩ ⟨revisions, active⟩ :=
  access_steps (congrArg Prod.snd h : (store.access key id event.now).2 = revisions)

theorem createRevision_steps {payload}
    (h : store.createRevision session.codec key payload event.now = (id, revisions)) :
    HostSteps session event issued ⟨store, active⟩ ⟨revisions, active⟩ := by
  have hcreate : (store.createRevision session.codec key payload event.now).2 = revisions := congrArg Prod.snd h
  rw [← hcreate]
  exact (HostStep.create ⟨store, active⟩ key payload).steps

theorem consume_steps {cursor} (hcursor : event.request.cursor = some cursor) {expected result}
    (h : host.consume session.signer cursor event.request.connectionId expected event.now = (after, result)) :
    HostSteps session event issued host after := by
  have hrelease : HostSteps session event issued host (host.release cursor) :=
    (HostStep.release host cursor hcursor).steps
  have hfst : (host.consume session.signer cursor event.request.connectionId expected event.now).1 = after :=
    congrArg Prod.fst h
  rw [← hfst, Host.consume]
  split
  · exact Relation.ReflTransGen.refl
  · split
    · exact hrelease
    · split_ifs
      · exact hrelease
      · exact Relation.ReflTransGen.refl
      · exact hrelease

theorem answerPage_stepped {resource resourceId revision items complete position extra}
    (hpoints : (envelopeAt session resource revision position extra).PointsTo (resourceKey resource resourceId)) :
    Stepped session event host
      (answerPage session event resource resourceId revision items complete position extra host) := by
  cases complete with
  | true => exact Stepped.refl
  | false =>
    simp only [Stepped, answerPage, Host.grant, Bool.false_eq_true, if_false]
    split_ifs with hroom
    · exact (HostStep.sweep host).steps
    · cases hpin : (host.sweep event.now).revisions.pin
          (session.signer.sign (envelopeAt session resource revision position extra))
          (resourceKey resource resourceId) (envelopeAt session resource revision position extra).revision with
      | none => exact (HostStep.sweep host).steps
      | some revisions =>
        refine (HostStep.sweep host).steps.trans (HostStep.steps ?_)
        have hroom' := not_or.mp hroom
        exact HostStep.issue _ _ resource resourceId revisions rfl hpoints (not_le.mp hroom'.1)
          (not_le.mp hroom'.2) hpin

variable {resource revision : JsStr} {selector : CursorSelector} {extra : EnvelopeExtra} {source : Source}

theorem chunkRange_stepped {kind resourceId range} :
    Stepped session event host (chunkRange session event kind resourceId revision range selector extra host) := by
  apply answerPage_stepped
  intro hnone
  cases hnone

theorem answerRoot_stepped {snapshot} :
    Stepped session event host (answerRoot session event source selector snapshot revision host) := by
  simp only [answerRoot, RevisionStore.readRootRange]
  split
  · next hlength => exact (revisionByteLength_steps hlength).answer Stepped.refl
  · next hlength =>
    apply (revisionByteLength_steps hlength).answer
    split_ifs
    · exact answerPage_stepped fun _ => ⟨selector, rfl, rfl⟩
    · split
      · next hread => exact (readRange_steps hread).answer Stepped.refl
      · next hread => exact (readRange_steps hread).answer chunkRange_stepped

theorem continueSource_stepped {queryId cursor} (hcursor : event.request.cursor = some cursor) :
    Stepped session event host (continueSource session event queryId source cursor host) := by
  simp only [continueSource, RevisionStore.readRootRange]
  split
  · next hconsume => exact (consume_steps hcursor hconsume).answer Stepped.refl
  · next hconsume =>
    apply (consume_steps hcursor hconsume).answer
    split
    · exact Stepped.refl
    · split
      · next hread => exact (readPage_steps hread).answer (answerPage_stepped fun _ => ⟨_, rfl, rfl⟩)
      · next hread =>
        apply (readPage_steps hread).answer
        split
        · next hroot => exact (readRange_steps hroot).answer Stepped.refl
        · next hroot => exact (readRange_steps hroot).answer chunkRange_stepped

theorem openSource_stepped {queryId} : Stepped session event host (openSource session event queryId source host) := by
  rw [openSource]
  split
  · exact Stepped.refl
  · exact Stepped.refl
  · next snapshot _ =>
    cases hcreate : host.revisions.createRevision session.codec (resourceKey source.resource
        (selectorFor session queryId event.request.input).resourceId) snapshot event.now with
    | mk revision revisions =>
      apply (createRevision_steps hcreate).answer
      cases snapshot with
      | document value => exact answerRoot_stepped
      | array items =>
        dsimp only
        split
        · next hread => exact (readPage_steps hread).answer (answerPage_stepped fun _ => ⟨_, rfl, rfl⟩)
        · next hread => exact (readPage_steps hread).answer answerRoot_stepped

theorem readTranscriptBodyRange_steps {entryId offset range}
    (h : store.readTranscriptBodyRange codec revision entryId offset event.now = (range, revisions)) :
    HostSteps session event issued ⟨store, active⟩ ⟨revisions, active⟩ := by
  rw [RevisionStore.readTranscriptBodyRange] at h
  split at h
  · next hbody =>
    obtain ⟨-, rfl⟩ := Prod.mk.inj h
    exact readRange_steps hbody
  · next hbody => exact (readRange_steps hbody).trans (readRange_steps h)

theorem answerBody_stepped {entryId offset highWatermark} :
    Stepped session event host (answerBody session event selector entryId revision offset highWatermark host) := by
  rw [answerBody]
  split
  · next h => exact (readTranscriptBodyRange_steps h).answer Stepped.refl
  · next h => exact (readTranscriptBodyRange_steps h).answer chunkRange_stepped

theorem transcriptBody_stepped : Stepped session event host (transcriptBody session event host) := by
  rw [transcriptBody]
  split
  · next hcursor =>
    split
    · next hconsume => exact (consume_steps hcursor hconsume).answer Stepped.refl
    · next hconsume =>
      apply (consume_steps hcursor hconsume).answer
      split
      · exact Stepped.refl
      · exact answerBody_stepped
  · split
    · exact Stepped.refl
    · exact Stepped.refl
    · next snapshot _ =>
      cases hcreate : host.revisions.createRevision session.codec (resourceKey (lit "transcript") (lit "default"))
          snapshot event.now with
      | mk revision revisions => exact (createRevision_steps hcreate).answer answerBody_stepped

theorem answerResource_stepped {offset} :
    Stepped session event host (answerResource session event selector revision offset host) := by
  simp only [answerResource, RevisionStore.readStringRange, RevisionStore.readIndexedStringRange]
  cases selector.get (lit "itemId") <;> dsimp only <;> split
  · next h => exact (readRange_steps h).answer Stepped.refl
  · next h => exact (readRange_steps h).answer chunkRange_stepped
  · next h => exact (readRange_steps h).answer Stepped.refl
  · next h => exact (readRange_steps h).answer chunkRange_stepped

theorem resourceBody_stepped : Stepped session event host (resourceBody session event host) := by
  rw [resourceBody]
  split
  · exact answerResource_stepped
  · next hcursor =>
    split
    · next hconsume => exact (consume_steps hcursor hconsume).answer Stepped.refl
    · next hconsume =>
      apply (consume_steps hcursor hconsume).answer
      split
      · exact Stepped.refl
      · exact answerResource_stepped

variable (session event host) in
/-- Whatever is asked, the host changes by these steps only. -/
theorem handle_stepped : Stepped session event host (handle session event host) := by
  rw [handle]
  split
  · exact Stepped.refl
  · exact transcriptBody_stepped
  · exact resourceBody_stepped
  · exact Stepped.refl
  · rw [pageSource]
    split
    · next hcursor => exact continueSource_stepped hcursor
    · exact openSource_stepped

end

end GajaeCode.Query
