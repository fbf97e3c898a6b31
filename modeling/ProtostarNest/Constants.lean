/-!
# `common/constants.ts`

The limits the services share.
-/

namespace ProtostarNest

def CHAT_MAX_CONNECTIONS : Nat := 600
def SSE_RETRY_SECONDS : Nat := 10
def CONCURRENCY : Nat := 3
def MAX_PENDING : Nat := 10
def PERSONAL_MAX_UPLOADS : Nat := 10

end ProtostarNest
