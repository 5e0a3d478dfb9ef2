import PropertyTree.Client.Replay
import PropertyTree.Client.TreeAdds
import PropertyTree.Monitor.Listing
import PropertyTree.Receiver
import PropertyTree.Server.Answers
import PropertyTree.Server.Authority
import PropertyTree.Server.Delivery
import PropertyTree.Server.Finding
import PropertyTree.Server.Refusals
import PropertyTree.Server.Subscription
import PropertyTree.Server.Uuids
import PropertyTree.System.ChildMaps
import PropertyTree.System.Convergence
import PropertyTree.System.Deletions
import PropertyTree.System.Interference
import PropertyTree.System.Knowledge
import PropertyTree.System.Linearization
import PropertyTree.System.Locking
import PropertyTree.System.Returns
import PropertyTree.System.Rpc
import PropertyTree.System.TreeAdds
import PropertyTree.System.Wire
