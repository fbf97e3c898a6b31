import ProtostarNest.Chat.Slots
import ProtostarNest.Chat.Delivery
import ProtostarNest.Queue.Capacity
import ProtostarNest.Knowledge.Tasks
import ProtostarNest.Knowledge.Quota
import ProtostarNest.Knowledge.Content
import ProtostarNest.Knowledge.Dispatch
import ProtostarNest.Knowledge.Failures
import ProtostarNest.Knowledge.Orphans
import ProtostarNest.Knowledge.Batches
import ProtostarNest.Knowledge.Owners
import ProtostarNest.Knowledge.Noninterference
import ProtostarNest.Auth.Service
import ProtostarNest.Auth.Roles
import ProtostarNest.Filter
import ProtostarNest.Knowledge.Progress
import ProtostarNest.Knowledge.Overload
import ProtostarNest.Knowledge.Reports
import ProtostarNest.Chat.Jobs
import ProtostarNest.Auth.Accounts
import ProtostarNest.Auth.Passwords
import ProtostarNest.Knowledge.Arrival
import ProtostarNest.Knowledge.Uploads
import ProtostarNest.Monitoring.Detector
import ProtostarNest.Knowledge.ObjectKeys
import ProtostarNest.App.Server
import ProtostarNest.App.Circuit
import ProtostarNest.App.Isolation
import ProtostarNest.Knowledge.Backlog
import ProtostarNest.Knowledge.Answers
import ProtostarNest.Knowledge.Overshoot
import ProtostarNest.Knowledge.Listing
import ProtostarNest.Knowledge.Payloads
import ProtostarNest.Chat.Instances
import ProtostarNest.Chat.Responses
